import SchemaMerge.Proofs.Reading.Rules
import SchemaMerge.Proofs.Reading.Seam

/-!
# What is read inside a definition

Inside a definition a parser reads the same from both lists of a seam, from the literals up to the
members. Where a definition is not complete, the end fails, so comments behind the seam are never
reached.
-/

namespace SchemaMerge

open SchemaMerge.Parser

theorem Feed.exists_next?_of_trailing? {feed : Feed} {text : String}
    (h : feed.trailing? = some text) : ∃ span, feed.next? = some ⟨.comment text, span⟩ := by
  unfold Feed.trailing? at h
  split at h
  · next text' span stop hnext _ =>
    split at h
    · cases h
      exact ⟨span, hnext⟩
    · cases h
  · cases h

namespace Seam

variable {s : Seam} {carried : List String}

/-! ## Descriptions and comments -/

theorem proper_comma :
    Proper fun kind : TokenKind => if kind = .punctuator .comma then some () else none := by
  intro kind _ hread
  simp only [Option.ite_none_right_eq_some] at hread
  simp [hread.1, TokenKind.isProper]

theorem proper_description? : Proper TokenKind.description? := by
  intro kind text hread
  cases kind <;> simp_all [TokenKind.description?, TokenKind.isProper]

theorem proper_comment? : Proper TokenKind.comment? := by
  intro kind text hread
  cases kind <;> simp_all [TokenKind.comment?, TokenKind.isProper]

/-- What is behind the seam is not of a kind that stands within definitions. -/
theorem kind_next_ne {kind : TokenKind} (hk : kind.opens = false) : s.next.kind ≠ kind := by
  rintro rfl
  rw [s.opens_next] at hk
  cases hk

theorem follows_skipCommas : s.Follows carried skipCommas skipCommas id :=
  (follows_takeRun proper_comma (if_neg (kind_next_ne rfl))).bind fun _ => follows_pure rfl

theorem halts_skipCommas : s.Halts skipCommas fun _ => True :=
  (halts_takeRun proper_comma).bind fun _ _ => halts_pure trivial

theorem follows_swapCarried : s.Follows [] (swapCarried []) (swapCarried []) id := by
  rintro _ _ ⟨done, left, htokens, hdone, rfl, rfl⟩ _ _ ⟨⟩
  exact .inl ⟨s.long [] done left, rfl, done, left, htokens, hdone, rfl, rfl⟩

/-- Descriptions may go on behind the seam. -/
theorem followsOr_descriptions : s.FollowsOr [] descriptions descriptions id fun _ => True :=
  follows_swapCarried.bind fun _ =>
    ((followsOr_takeRun proper_description?).mono fun _ _ => trivial).bind
      (fun _ => follows_pure rfl) fun _ _ => halts_pure trivial

/-- So may comments. -/
theorem followsOr_innerComments :
    s.FollowsOr carried innerComments innerComments id fun _ => True :=
  (followsOr_takeRun proper_comment?).mono fun _ _ => trivial

theorem kind_stop_of_trailing? {done : List Token} {text : String}
    (h : (s.short carried done []).trailing? = some text) : False := by
  obtain ⟨span, hnext⟩ := Feed.exists_next?_of_trailing? h
  obtain hnext : s.stop = _ := Option.some.inj hnext
  exact absurd s.kind_stop (by simp [hnext])

/-- At the seam nothing trails, since what follows it stands on a later line. -/
theorem At.trailing?_eq {feed other : Feed} (h : s.At carried feed other) :
    other.trailing? = feed.trailing? := by
  obtain ⟨done, left, htokens, -, rfl, rfl⟩ := h
  cases left with
  | nil =>
    rw [Option.eq_none_iff_forall_ne_some.2 fun text => kind_stop_of_trailing? (s := s)]
    unfold Feed.trailing?
    split
    · next text span stop hnext hlast =>
      obtain hnext : s.next = _ := Option.some.inj hnext
      obtain ⟨token, htoken, rfl⟩ := Option.map_eq_some_iff.1 hlast
      have hmem : token ∈ s.tokens := by
        rw [htokens, List.append_nil]
        exact List.mem_of_getLast? htoken
      have hapart := s.apart token hmem (by rw [hnext]; rfl)
      rw [hnext] at hapart
      exact if_neg fun he => hapart he.symm
    · rfl
  | cons token left =>
    obtain ⟨kind, span⟩ := token
    cases hlast : done.getLast? with
    | none => cases kind <;> simp [Feed.trailing?, Feed.next?, short, long, hlast]
    | some last =>
      cases kind <;> simp [Feed.trailing?, Feed.next?, short, long, hlast, Relocation.token,
        Relocation.span]

/-- A comment that trails is in front of the seam. -/
theorem At.advance_of_trailing? {feed other : Feed} (h : s.At carried feed other) {text : String}
    (ht : feed.trailing? = some text) : s.At carried feed.advance other.advance := by
  obtain ⟨done, left, htokens, hdone, rfl, rfl⟩ := h
  cases left with
  | nil => exact (kind_stop_of_trailing? ht).elim
  | cons token left =>
    obtain ⟨span, hnext⟩ := Feed.exists_next?_of_trailing? ht
    obtain hnext : token = _ := Option.some.inj hnext
    exact At.advance s htokens hdone (by rw [hnext]; rfl)

/-- A comment behind the seam trails nothing in front of it, since it starts another line. -/
theorem follows_trailingComment : s.Follows carried trailingComment trailingComment id := by
  refine follows_skipCommas.bind fun _ => ?_
  intro feed other hfeed texts rest hrun
  rw [bind_run, feed_run] at hrun ⊢
  simp only [hfeed.trailing?_eq] at hrun ⊢
  cases htrails : feed.trailing? with
  | none =>
    simp only [htrails, pure_run, Except.ok.injEq, Prod.mk.injEq] at hrun ⊢
    obtain ⟨rfl, rfl⟩ := hrun
    exact .inl ⟨other, ⟨rfl, rfl⟩, hfeed⟩
  | some comment =>
    simp only [htrails, bind_run, advance_run, pure_run, Except.ok.injEq, Prod.mk.injEq]
      at hrun ⊢
    obtain ⟨rfl, rfl⟩ := hrun
    exact .inl ⟨_, ⟨rfl, rfl⟩, hfeed.advance_of_trailing? htrails⟩

/-! ## Values, types and directives -/

theorem follows_name (what : String) : s.Follows carried (name what) (name what) id :=
  Follows.bind (follows_expect (moves_name _ what)) fun _ => follows_pure rfl

theorem fails_name (what : String) : s.Fails (name what) :=
  Fails.bind (fails_expect (moves_name _ what))

theorem moves_listItem (ρ : Relocation) : Moves ρ .listItem (Sum.map ρ.span id) := by
  intro token item hread
  simp only [Want.listItem] at hread ⊢
  split at hread
  · next hkind =>
    cases hread
    exact ⟨by rw [hkind]; rfl, by simp [hkind], if_pos hkind⟩
  · next hkind =>
    obtain ⟨text, htext, rfl⟩ := Option.map_eq_some_iff.1 hread
    obtain ⟨hproper, hend, -⟩ := moves_literal ρ token text htext
    exact ⟨hproper, hend, (if_neg hkind).trans (by simp [htext])⟩

/-- A list literal follows, by induction on how deep lists may be nested in it. -/
theorem follows_listTail (separator : String) (depth : Nat) (opening opening' : Span) :
    s.Follows carried (listTail separator depth opening) (listTail separator depth opening')
      id := by
  induction depth generalizing opening opening' with
  | zero => exact follows_fail _
  | succ depth ih =>
    refine Follows.bind (follows_loop id id id _ (fun values => ?_) (moves_listItem _)
      (fun values item => ?_) []) fun values =>
        Follows.bind (follows_expect (moves_mark _ _)) fun _ => follows_pure rfl
    · exact follows_skipCommas.bind fun _ => (follows_nextIs rfl).bind fun close =>
        follows_ite (fun _ => follows_pure rfl) fun _ => follows_pure rfl
    · cases item with
      | inl opening => exact (ih opening _).bind fun nested => follows_pure rfl
      | inr value => exact follows_pure rfl

/-- A value ends with its own last token. -/
theorem follows_value (separator : String) :
    s.Follows carried (value separator) (value separator) id := by
  refine (follows_nextIs rfl).bind fun bracket => follows_ite (fun _ => ?_) fun _ => ?_
  · exact Follows.bind (follows_expect (moves_mark _ _)) fun opening =>
      (follows_listTail separator maxListDepth _ _).bind fun values => follows_pure rfl
  · exact Follows.bind (follows_expect (moves_literal _)) fun _ => follows_pure rfl

theorem follows_optionalDefault : s.Follows carried optionalDefault optionalDefault id :=
  (follows_takeIf rfl rfl).bind fun _ => follows_ite
    (fun _ => (follows_value _).bind fun _ => follows_pure rfl) fun _ => follows_pure rfl

theorem follows_typeRef : s.Follows carried typeRef typeRef id := by
  refine (follows_takeIf rfl rfl).bind fun bracket => follows_ite (fun _ => ?_) fun _ => ?_
  · refine (follows_name _).bind fun name => (follows_takeIf rfl rfl).bind fun bang => ?_
    refine Follows.bind (follows_expect (moves_mark _ _)) fun _ => ?_
    exact (follows_takeIf rfl rfl).bind fun listBang => follows_pure rfl
  · exact (follows_name _).bind fun name => (follows_takeIf rfl rfl).bind fun bang =>
      follows_pure rfl

theorem fails_typeRef : s.Fails typeRef := by
  refine (halts_takeIf rfl).bind fun bracket hbracket => ?_
  subst hbracket
  exact (fails_name _).bind

/-- A round between parentheses ends the loop or goes on to an entry. Where descriptions behind the
seam are taken in, it goes on, and then there is no entry. -/
theorem followsOr_turnInParens {α τ : Type} (stop : List String → α) (go : List String → τ) :
    s.FollowsOr [] (turnInParens stop go) (turnInParens stop go) (Sum.map id id)
      fun turned => turned.isRight := by
  refine follows_skipCommas.bind fun _ => followsOr_descriptions.bind (fun texts => ?_)
    fun texts _ => ?_
  · exact follows_skipCommas.bind fun _ => (follows_nextIs rfl).bind fun close =>
      follows_ite (fun _ => follows_pure rfl) fun _ => follows_pure rfl
  · refine halts_skipCommas.bind fun _ _ => (halts_nextIs rfl).bind fun close hclose => ?_
    subst hclose
    exact halts_pure rfl

theorem follows_directiveArguments : s.Follows [] directiveArguments directiveArguments id := by
  refine (follows_takeIf rfl rfl).bind fun paren => follows_ite (fun _ => ?_)
    fun _ => follows_pure rfl
  refine Follows.bind (follows_loop id id id _ (fun found => ?_) (moves_name _ _)
    (fun found name => ?_) ([], [])) fun found =>
      Follows.bind (follows_expect (moves_mark _ _)) fun _ => follows_pure rfl
  · exact followsOr_turnInParens (fun texts => (found.1, found.2 ++ texts)) fun texts =>
      (found.1, found.2 ++ texts)
  · exact Follows.bind (follows_expect (moves_mark _ _)) fun _ =>
      (follows_value _).bind fun value => follows_pure rfl

/-- Directives end in front of the seam, as what is behind it starts none. -/
theorem follows_directives : s.Follows [] directives directives id := by
  refine follows_loop id id id _ (fun found => ?_) (moves_mark _ _) (fun found _ => ?_) []
  · exact (follows_nextIs rfl).bind fun sign =>
      follows_ite (fun _ => follows_pure rfl) fun _ => follows_pure rfl
  · -- Descriptions between the sign and the name may run over the seam; then the name is missing.
    refine followsOr_descriptions.bind (fun before => ?_) fun before _ => (fails_name _).bind
    exact (follows_name _).bind fun name => follows_directiveArguments.bind fun inner =>
      follows_pure rfl

/-! ## Members -/

/-- An argument is followed up to its last directive. -/
theorem follows_argumentTail (texts : List String) (name : String) :
    s.Follows [] (argumentTail texts name) (argumentTail texts name) id := by
  refine Follows.bind (follows_expect (moves_mark _ _)) fun _ => ?_
  refine followsOr_innerComments.bind (fun inner => ?_) fun inner _ =>
    fails_typeRef.bind
  exact follows_typeRef.bind fun type => follows_optionalDefault.bind fun default =>
    follows_directives.bind fun directives => follows_pure rfl

theorem follows_optionalArguments : s.Follows [] optionalArguments optionalArguments id := by
  refine (follows_takeIf rfl rfl).bind fun paren => follows_ite (fun _ => ?_)
    fun _ => follows_pure rfl
  refine Follows.bind (follows_loop id id id _ (fun found => ?_) (moves_name _ _)
    (fun entry name => ?_) []) fun found =>
      Follows.bind (follows_expect (moves_mark _ _)) fun _ => follows_pure rfl
  · exact followsOr_turnInParens (fun _ => found) fun texts => (found, texts)
  · exact (follows_argumentTail _ _).bind fun a => follows_pure rfl

/-- At the end a body is still open. -/
theorem fails_closesBraces (expected : List String) (opening : Span) :
    s.Fails (closesBraces expected opening) := by
  intro feed hfeed a rest hrun
  have hnext : feed.next? = some s.stop := by rw [Feed.next?, hfeed, List.head?_cons]
  simp [closesBraces, hnext, s.kind_stop, TokenKind.name?] at hrun

theorem follows_closesBraces (expected : List String) (opening opening' : Span) :
    s.Follows carried (closesBraces expected opening) (closesBraces expected opening') id := by
  rintro _ _ ⟨done, left, htokens, hdone, rfl, rfl⟩ a rest hrun
  cases left with
  | nil => exact .inr (fails_closesBraces expected opening _ rfl a rest hrun)
  | cons token left =>
    have hnext : (s.short carried done (token :: left)).next? = some token := rfl
    have hother : (s.long carried done (token :: left)).next? = some (s.move.token token) := rfl
    suffices hsame : rest = s.short carried done (token :: left) ∧
        (closesBraces expected opening').run (s.long carried done (token :: left)) =
          .ok (a, s.long carried done (token :: left)) from
      .inl ⟨_, hsame.2, done, token :: left, htokens, hdone, hsame.1, rfl⟩
    simp only [closesBraces, bind_run, feed_run, hnext, hother] at hrun ⊢
    by_cases hclose : token.kind = .punctuator .braceClose
    · have hmoved : (s.move.token token).kind = .punctuator .braceClose := hclose
      simp only [if_pos hclose, if_pos hmoved, pure_run, Except.ok.injEq, Prod.mk.injEq,
        and_true] at hrun ⊢
      exact ⟨hrun.2.symm, hrun.1⟩
    · have hmoved : (s.move.token token).kind ≠ .punctuator .braceClose := hclose
      by_cases hname : token.kind.name?.isSome
      · have hmovedName : (s.move.token token).kind.name?.isSome := hname
        simp only [if_neg hclose, if_neg hmoved, if_pos hname, if_pos hmovedName, pure_run,
          Except.ok.injEq, Prod.mk.injEq, and_true] at hrun ⊢
        exact ⟨hrun.2.symm, hrun.1⟩
      · simp only [if_neg hclose, if_neg hname, fail_run, reduceCtorEq] at hrun

/-- A round between braces follows, since descriptions in front of the end are followed by no
closing brace. -/
theorem followsOr_turnInBraces {α τ : Type} {stop stop' : List String → α}
    {go go' : List String → τ} {f : α → α} {g : τ → τ} {expected : List String}
    {opening opening' : Span} {lost : α ⊕ τ → Prop} (hstop : ∀ texts, stop' texts = f (stop texts))
    (hgo : ∀ texts, go' texts = g (go texts)) :
    s.FollowsOr [] (turnInBraces stop go expected opening)
      (turnInBraces stop' go' expected opening') (Sum.map f g) lost := by
  refine follows_skipCommas.bind fun _ => followsOr_descriptions.bind (fun texts => ?_)
    fun texts _ => (fails_closesBraces _ _).bind
  exact (follows_closesBraces _ _ _).bind fun close =>
    follows_ite (fun _ => follows_pure (congrArg Sum.inl (hstop texts)))
      fun _ => follows_pure (congrArg Sum.inr (hgo texts))

/-- Members follow if each of them does. -/
theorem follows_optionalMembers {α : Type} {what : String}
    {member : List String → String × Span → Parser α} {f : α → α}
    (h : ∀ texts name, s.Follows [] (member texts name)
      (member texts (Prod.map id s.move.span name)) f) :
    s.Follows [] (optionalMembers what member) (optionalMembers what member) (List.map f) := by
  refine (follows_nextIs rfl).bind fun brace => follows_ite (fun _ => ?_)
    fun _ => follows_pure rfl
  refine Follows.bind (follows_expect (moves_mark _ _)) fun opening => ?_
  refine Follows.bind (follows_loop (List.map f) (List.map f) (Prod.map (List.map f) id) _
    (fun found => ?_) (moves_name _ _) (fun entry name => ?_) []) fun found =>
      Follows.bind (follows_expect (moves_mark _ _)) fun _ => follows_pure rfl
  · exact followsOr_turnInBraces (fun _ => rfl) fun _ => rfl
  · exact (h entry.2 name).bind fun a => follows_pure (by simp)

/-- A field that is read in front of the seam is read on both lists. -/
theorem follows_fieldTail (texts : List String) (name : String × Span) :
    s.Follows [] (fieldTail texts name) (fieldTail texts (Prod.map id s.move.span name))
      (relocate s.move) := by
  refine follows_optionalArguments.bind fun arguments => ?_
  refine Follows.bind (follows_expect (moves_mark _ _)) fun _ => ?_
  refine followsOr_innerComments.bind (fun inner => ?_) fun inner _ =>
    fails_typeRef.bind
  exact follows_typeRef.bind fun type => follows_optionalDefault.bind fun default =>
    follows_directives.bind fun directives => follows_trailingComment.bind fun trailing =>
      follows_pure rfl

theorem follows_enumValueTail (texts : List String) (name : String × Span) :
    s.Follows [] (enumValueTail texts name) (enumValueTail texts (Prod.map id s.move.span name))
      id :=
  follows_directives.bind fun _ => follows_trailingComment.bind fun _ => follows_pure rfl

/-- No separator is behind the seam, so a list of names ends in front of it. -/
theorem follows_separatedNames {separator : Punctuator} (what : String) :
    s.Follows carried (separatedNames separator what) (separatedNames separator what) id := by
  refine (follows_takeIf rfl rfl).bind fun _ => ?_
  refine follows_loop id id id _ (fun state => ?_) (moves_name _ _) (fun names name => ?_)
    ([], true)
  · obtain ⟨names, more⟩ := state
    cases more <;> exact follows_pure rfl
  · exact (follows_takeIf rfl rfl).bind fun more => follows_pure rfl

theorem follows_optionalInterfaces :
    s.Follows carried optionalInterfaces optionalInterfaces id :=
  (follows_takeIf rfl rfl).bind fun _ => follows_ite
    (fun _ => (follows_separatedNames _).bind fun _ => follows_pure rfl)
    fun _ => follows_pure rfl

theorem follows_optionalUnionMembers :
    s.Follows carried optionalUnionMembers optionalUnionMembers id :=
  (follows_takeIf rfl rfl).bind fun _ =>
    follows_ite (fun _ => follows_separatedNames _) fun _ => follows_pure rfl

/-! ## Definitions without a body to come -/

/-- An entry of a schema block names an operation and its type, both in front of the seam. -/
theorem follows_schemaEntryTail (block : SchemaBlock) (key : String × Span) :
    s.Follows carried (schemaEntryTail block key)
      (schemaEntryTail (relocate s.move block) (Prod.map id s.move.span key))
      (relocate s.move) := by
  obtain ⟨key, span⟩ := key
  simp only [schemaEntryTail, Prod.map, id]
  cases RootOperation.ofKey? key with
  | none => exact follows_fail _
  | some operation =>
    refine Follows.bind (follows_expect (moves_mark _ _)) fun _ => ?_
    refine followsOr_innerComments.bind (fun inner => ?_) fun _ _ => (fails_name _).bind
    refine (follows_name _).bind fun type => ?_
    cases operation <;> exact follows_ite (fun _ => follows_fail _) fun _ => follows_pure rfl

/-- A schema block ends with its brace. -/
theorem follows_schemaBlockTail (texts : List String) (span : Span) :
    s.Follows [] (schemaBlockTail texts span) (schemaBlockTail texts (s.move.span span))
      (relocate s.move) := by
  refine followsOr_innerComments.bind (fun inner => ?_) fun _ _ =>
    (fails_expect (moves_mark _ _)).bind
  refine Follows.bind (follows_expect (moves_mark _ _)) fun opening => ?_
  refine Follows.bind (follows_loop (relocate s.move) (relocate s.move) (relocate s.move) _
    (fun block => ?_) (moves_name _ _) follows_schemaEntryTail _) fun block =>
      Follows.bind (follows_expect (moves_mark _ _)) fun _ => follows_pure rfl
  exact followsOr_turnInBraces (fun _ => rfl) fun _ => rfl

theorem follows_directiveDefinitionTail (texts : List String) :
    s.Follows [] (directiveDefinitionTail texts) (directiveDefinitionTail texts)
      (relocate s.move) := by
  refine Follows.bind (follows_expect (moves_mark _ _)) fun _ => ?_
  refine Follows.bind (follows_expect (moves_name _ _)) fun name => ?_
  refine follows_optionalArguments.bind fun arguments => (follows_takeIf rfl rfl).bind fun rep => ?_
  refine Follows.bind (follows_expect (moves_keyword _ _)) fun _ => ?_
  exact (follows_separatedNames _).bind fun locations =>
    follows_trailingComment.bind fun comments => follows_pure rfl

theorem follows_scalarTail (texts : List String) :
    s.Follows [] (scalarTail texts) (scalarTail texts) (relocate s.move) := by
  refine Follows.bind (follows_expect (moves_name _ _)) fun name => ?_
  exact follows_directives.bind fun directives => follows_trailingComment.bind fun comments =>
    follows_pure rfl

theorem follows_unionTail (texts : List String) :
    s.Follows [] (unionTail texts) (unionTail texts) (relocate s.move) := by
  refine Follows.bind (follows_expect (moves_name _ _)) fun name => ?_
  exact follows_directives.bind fun directives => follows_optionalUnionMembers.bind fun members =>
    follows_trailingComment.bind fun comments => follows_pure rfl

end Seam

end SchemaMerge
