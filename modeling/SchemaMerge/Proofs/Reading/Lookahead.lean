import SchemaMerge.Proofs.Reading.Skims

/-!
# What the parsers look for behind commas

Where commas come next, a parser stops, and none of the tokens that would make it go on stands
behind them (`Fresh`). The parsers of values, types, directives and members are followed by others
that want such tokens; what these leave is known from the end of the definition. Each lemma here
says what stands behind the commas where its parser starts and where it stops.
-/

namespace SchemaMerge

namespace Parser

variable {α β σ τ : Type} {tokens : List Token}

/-! ## Values, types and directives -/

section

variable {kinds : TokenKind → Prop}

theorem skims_mark (mark : Punctuator) (h : mark ≠ .comma) {post : Span → Feed → Prop} :
    Skims tokens Feed.OffComma (expect (.mark mark)) post :=
  skims_expect_offComma (Want.solid_mark h)

theorem skims_name (what : String) {post : String → Feed → Prop} :
    Skims tokens Feed.OffComma (name what) post :=
  (skims_expect_offComma (Want.solid_name what)).bind fun _ => skims_pure fun _ h => h

theorem skims_takeMark (mark : Punctuator) (hkinds : Fresh kinds) (hmark : mark.closes = false)
    (hcomma : mark ≠ .comma) :
    Skims tokens (Feed.Clear kinds) (takeIf (.punctuator mark)) fun taken feed =>
      taken = false → feed.Clear kinds :=
  skims_takeIf (by simpa using hcomma) (hkinds mark hmark)

/-- Whatever follows the closing bracket: by induction on how deep lists may be nested in the
list. -/
theorem skims_listTail (separator : String) (depth : Nat) (opening : Span)
    {post : List String → Feed → Prop} :
    Skims tokens (Feed.Opens (· ≠ .punctuator .comma)) (listTail separator depth opening) post := by
  induction depth generalizing opening post with
  | zero => exact skimsTo_fail _
  | succ depth ih =>
    refine (skims_loop (fun _ => Feed.Opens (· ≠ .punctuator .comma))
      (fun _ => Feed.Faces (· ≠ .punctuator .comma)) (fun values => ?_) (fun values => ?_)
      []).bind fun values => (skims_expect_solid (Want.solid_mark (by simp))).bind fun _ =>
        skims_pure fun _ h => h
    · exact (skims_skipCommas_faces (by simp)).bind fun _ =>
        (skims_nextIs (by simp) fun feed h => h.clear (by simp)).bind fun close =>
          skimsTo_ite (skims_pure fun _ h => h) (skims_pure fun _ h => h)
    · refine (@skims_expect_solid _ _ _ (fun _ => Feed.Opens (· ≠ .punctuator .comma))
        Want.solid_listItem).bind fun item => ?_
      cases item with
      | inl opening => exact (ih opening).bind fun nested => skims_pure fun _ h => h
      | inr value => exact skims_pure fun _ h => h

theorem skims_value (separator : String) {post : List String × Bool → Feed → Prop} :
    Skims tokens Feed.OffComma (value separator) post := by
  refine (skims_nextIs (by simp) fun feed h => h.mono fun _ => False.elim).bind fun bracket =>
    skimsTo_ite ?_ ?_
  · exact (skims_mark .bracketOpen (by simp)).bind fun opening =>
      (skims_listTail separator maxListDepth opening).bind fun values => skims_pure fun _ h => h
  · exact (skims_expect_offComma Want.solid_literal).bind fun _ => skims_pure fun _ h => h

theorem skims_optionalDefault (hkinds : Fresh kinds) :
    Skims tokens (Feed.Clear kinds) optionalDefault fun _ => Feed.Clear kinds :=
  (skims_takeMark .equals hkinds rfl (by simp)).bind fun _ => skimsTo_taken Feed.OffComma
    ((skims_value ", ").bind fun _ => skims_pure fun _ h => h) (skims_pure fun _ h => h)

theorem skims_typeRef (hkinds : Fresh kinds) :
    Skims tokens Feed.OffComma typeRef fun _ => Feed.Clear kinds := by
  have hnone : Fresh fun _ => False := fun _ _ => id
  refine (skims_takeMark .bracketOpen hnone rfl (by simp)).bind fun _ =>
    skimsTo_taken Feed.OffComma ?_ ?_
  · -- Behind the first bang stands the bracket, and behind the second there may be commas.
    exact (skims_name "type name").bind fun item =>
      (skims_takeMark .bang hnone rfl (by simp)).bind fun bang =>
        ((skims_mark .bracketClose (by simp)).mono_pre fun _ h _ => h).bind fun _ =>
          (skims_takeMark .bang hkinds rfl (by simp)).bind fun listBang =>
            skims_pure fun _ h _ => h
  · exact (skims_name "type name").bind fun item =>
      (skims_takeMark .bang hkinds rfl (by simp)).bind fun bang => skims_pure fun _ h _ => h

/-- A round between parentheses starts in front of documentation, a name or the closing one. -/
theorem skims_turnInParens (stop : List String → α) (go : List String → τ) :
    Skims tokens (Feed.Opens (MemberKind .parenClose)) (turnInParens stop go)
      (Sum.elim (fun _ => Feed.Faces (EntryKind .parenClose))
        fun _ => Feed.Faces (EntryKind .parenClose)) := by
  have hcomma := @fresh_entryKind .parenClose rfl .comma rfl
  exact skims_skipCommas.bind fun _ =>
    (skims_descriptions_opens (fun _ => description?_of_entryKind) fun _ => id).bind fun texts =>
      (skims_skipCommas_faces hcomma).bind fun _ =>
        (skims_nextIs (by simp) fun feed h => h.clear hcomma).bind fun _ =>
          skimsTo_ite (skims_pure fun _ h => h) (skims_pure fun _ h => h)

theorem skims_closeMark {close : Punctuator} {post : Span → Feed → Prop}
    (hclose : close.closes = true) :
    Skims tokens (Feed.Faces (EntryKind close)) (expect (.mark close)) post := by
  refine skims_expect (fun token span hread => .inr ?_) (fresh_entryKind hclose .comma rfl)
  simp only [Want.mark, Option.ite_none_right_eq_some] at hread
  exact hread.1

theorem skims_entryName {close : Punctuator} (what : String) {post : String × Span → Feed → Prop}
    (hclose : close.closes = true) :
    Skims tokens (Feed.Faces (EntryKind close)) (expect (.name what)) post := by
  refine skims_expect (fun token found hread => .inl ?_) (fresh_entryKind hclose .comma rfl)
  obtain ⟨name, hname, -⟩ := Option.map_eq_some_iff.1 hread
  exact Option.isSome_of_eq_some hname

/-- Entries are read up to the mark that closes their list, so whatever follows it does. -/
theorem skims_entries {turn : σ → Parser (α ⊕ τ)} {what : String}
    {body : τ → String × Span → Parser σ} {close : Punctuator} {post : α → Feed → Prop}
    (before : Feed → Prop) (hclose : close.closes = true)
    (hturn : ∀ state, Skims tokens (Feed.Opens (MemberKind close)) (turn state)
      (Sum.elim (fun _ => Feed.Faces (EntryKind close)) fun _ => Feed.Faces (EntryKind close)))
    (hbody : ∀ entry name, Skims tokens before (body entry name)
      fun _ => Feed.Opens (MemberKind close)) (state : σ) :
    Skims tokens (Feed.Opens (MemberKind close))
      (loop turn (.name what) body state >>= fun found =>
        expect (.mark close) >>= fun _ => pure found) post := by
  refine (skims_loop (fun _ => Feed.Opens (MemberKind close))
    (fun _ => Feed.Faces (EntryKind close)) hturn (fun entry => ?_) state).bind fun found =>
      (skims_closeMark hclose).bind fun _ => skims_pure fun _ h => h
  exact (skims_entryName what hclose).bind fun name => hbody entry name

theorem skims_directiveArguments (hkinds : Fresh kinds) :
    Skims tokens (Feed.Clear kinds) directiveArguments fun _ => Feed.Clear kinds := by
  refine (skims_takeMark .parenOpen hkinds rfl (by simp)).bind fun _ =>
    skimsTo_taken (Feed.Opens (MemberKind .parenClose)) ?_ (skims_pure fun _ h => h)
  refine skims_entries Feed.OffComma rfl (fun found => ?_) (fun found name => ?_) ([], [])
  · exact skims_turnInParens (fun texts => (found.1, found.2 ++ texts)) fun texts =>
      (found.1, found.2 ++ texts)
  · exact (skims_mark .colon (by simp)).bind fun _ => (skims_value ",").bind fun value =>
      skims_pure fun _ h => h

theorem skims_directives (hkinds : Fresh kinds) :
    Skims tokens (Feed.Clear kinds) directives fun _ => Feed.Clear kinds := by
  refine skims_loop (fun _ => Feed.Clear kinds) (fun _ => Feed.OffComma) (fun found => ?_)
    (fun found => ?_) []
  · have hsign : ∀ kind, kinds kind → kind ≠ .punctuator .atSign := fun kind hkind heq =>
      hkinds .atSign rfl (heq ▸ hkind)
    exact (skims_nextIs (by simp) fun feed h => h.mono hsign).bind fun _ => skimsTo_ite
      (skims_pure fun _ h => Feed.Clear.mono h fun _ => False.elim) (skims_pure fun _ h => h)
  · exact (skims_mark .atSign (by simp)).bind fun _ =>
      skims_descriptions_offComma.bind fun before => (skims_name "directive name").bind fun name =>
        (skims_directiveArguments hkinds).bind fun arguments => skims_pure fun _ h => h

/-! ## Members -/

theorem skims_argumentTail (hkinds : Fresh kinds) (texts : List String) (name : String) :
    Skims tokens Feed.OffComma (argumentTail texts name) fun _ => Feed.Clear kinds :=
  (skims_mark .colon (by simp)).bind fun _ => skims_innerComments.bind fun inner =>
    (skims_typeRef hkinds).bind fun type => (skims_optionalDefault hkinds).bind fun default =>
      (skims_directives hkinds).bind fun directives => skims_pure fun _ h => h

theorem skims_optionalArguments (hkinds : Fresh kinds) :
    Skims tokens (Feed.Clear kinds) optionalArguments fun _ => Feed.Clear kinds := by
  refine (skims_takeMark .parenOpen hkinds rfl (by simp)).bind fun _ =>
    skimsTo_taken (Feed.Opens (MemberKind .parenClose)) ?_ (skims_pure fun _ h => h)
  refine skims_entries Feed.OffComma rfl (fun found => ?_) (fun entry name => ?_) []
  · exact skims_turnInParens (fun _ => found) fun texts => (found, texts)
  · exact (skims_argumentTail (fresh_memberKind rfl) entry.2 name.1).bind fun argument =>
      skims_pure fun _ h => h.clear

theorem skims_closesBraces (expected : List String) (opening : Span) :
    Skims tokens (Feed.Faces (EntryKind .braceClose)) (closesBraces expected opening)
      fun _ => Feed.Faces (EntryKind .braceClose) where
  needs hrun h := (closesBraces_run hrun).1 ▸ h
  exists_run {feed thin rest closes} hthin hrun h := by
    obtain rfl := (closesBraces_run hrun).1
    refine ⟨thin, ?_, hthin⟩
    obtain ⟨token, hnext, hkind⟩ := h
    have hthinNext := hthin.next?_eq_of_not_onComma
      (Feed.Faces.not_onComma ⟨token, hnext, hkind⟩ (fresh_entryKind rfl .comma rfl))
    rw [show rest.next? = some token from hnext] at hthinNext
    simp only [closesBraces, bind_run, feed_run, hthinNext] at hrun ⊢
    rw [show rest.next? = some token from hnext] at hrun
    by_cases hclose : token.kind = .punctuator .braceClose
    · simp only [hclose, if_true, pure_run] at hrun ⊢
      cases hrun
      rfl
    · have hname := hkind.resolve_right hclose
      simp only [hclose, hname, if_true, if_false, pure_run] at hrun ⊢
      cases hrun
      rfl

/-- A round between braces starts in front of documentation, a name or the closing one. -/
theorem skims_turnInBraces (stop : List String → α) (go : List String → τ)
    (expected : List String) (opening : Span) :
    Skims tokens (Feed.Opens (MemberKind .braceClose)) (turnInBraces stop go expected opening)
      (Sum.elim (fun _ => Feed.Faces (EntryKind .braceClose))
        fun _ => Feed.Faces (EntryKind .braceClose)) := by
  have hcomma := @fresh_entryKind .braceClose rfl .comma rfl
  exact skims_skipCommas.bind fun _ =>
    (skims_descriptions_opens (fun _ => description?_of_entryKind) fun _ => id).bind fun texts =>
      ((skims_closesBraces expected opening).mono_pre fun _ h => h.opens hcomma).bind fun _ =>
        skimsTo_ite (skims_pure fun _ h => h) (skims_pure fun _ h => h)

/-- Members skim commas if each of them does. -/
theorem skims_optionalMembers {what : String} {member : List String → String × Span → Parser α}
    (h : ∀ texts name, Skims tokens (Feed.Clear (MemberKind .braceClose)) (member texts name)
      fun _ => Feed.Opens (MemberKind .braceClose)) (hkinds : Fresh kinds) :
    Skims tokens (Feed.Clear kinds) (optionalMembers what member) fun _ => Feed.Clear kinds := by
  have hbrace : ∀ kind, kinds kind → kind ≠ .punctuator .braceOpen := fun kind hkind heq =>
    hkinds .braceOpen rfl (heq ▸ hkind)
  refine (skims_nextIs (by simp) fun feed h => h.mono hbrace).bind fun brace =>
    skimsTo_ite ?_ (skims_pure fun _ h => h)
  refine (@skims_mark _ .braceOpen (by simp) fun _ => Feed.Opens (MemberKind .braceClose)).mono_pre
    (fun _ h => h.mono fun _ => False.elim) |>.bind fun opening => ?_
  refine skims_entries (Feed.Clear (MemberKind .braceClose)) rfl (fun found => ?_)
    (fun entry name => ?_) []
  · exact skims_turnInBraces (fun _ => found) (fun texts => (found, texts)) _ opening
  · exact (h entry.2 name).bind fun a => skims_pure fun _ h => h

theorem skims_fieldTail (texts : List String) (name : String × Span) :
    Skims tokens (Feed.Clear (MemberKind .braceClose)) (fieldTail texts name)
      fun _ => Feed.Opens (MemberKind .braceClose) := by
  have hkinds := @fresh_memberKind .braceClose rfl
  exact (skims_optionalArguments hkinds).bind fun arguments =>
    ((skims_mark .colon (by simp)).mono_pre fun _ h => h.mono fun _ => False.elim).bind fun _ =>
      skims_innerComments.bind fun inner => (skims_typeRef hkinds).bind fun type =>
        (skims_optionalDefault hkinds).bind fun default =>
          (skims_directives hkinds).bind fun directives =>
            ((skims_trailingComment fun _ => memberKind_of_comment?).mono_pre
              fun _ h => h.clear).bind fun trailing => skims_pure fun _ h => h

theorem skims_enumValueTail (texts : List String) (name : String × Span) :
    Skims tokens (Feed.Clear (MemberKind .braceClose)) (enumValueTail texts name)
      fun _ => Feed.Opens (MemberKind .braceClose) :=
  (skims_directives (fresh_memberKind rfl)).bind fun _ =>
    ((skims_trailingComment fun _ => memberKind_of_comment?).mono_pre
      fun _ h => h.clear).bind fun _ => skims_pure fun _ h => h

/-- Behind a mark between names there is no comma, and behind the last name there may be some. -/
theorem skims_separatedNames (separator : Punctuator) (what : String)
    (hseparator : separator.closes = false) (hcomma : separator ≠ .comma) (hkinds : Fresh kinds) :
    Skims tokens Feed.OffComma (separatedNames separator what) fun _ => Feed.Clear kinds := by
  have hnone : Fresh fun _ => False := fun _ _ => id
  refine (skims_takeMark separator hnone hseparator hcomma).bind fun _ =>
    (skims_loop (fun state : List String × Bool => if state.2 then Feed.OffComma
      else Feed.Clear kinds) (fun _ => Feed.OffComma) (fun state => ?_) (fun names => ?_)
      ([], true)).mono_pre fun _ h _ => h
  · obtain ⟨names, more⟩ := state
    cases more with
    | true => exact skims_pure fun _ h => h
    | false => exact skims_pure fun _ h => h
  · refine (skims_expect_offComma (Want.solid_name what)).bind fun name =>
      (skims_takeMark separator hkinds hseparator hcomma).bind fun more => skims_pure ?_
    intro feed h hmore
    rw [hmore] at h
    exact h

theorem skims_optionalUnionMembers (hkinds : Fresh kinds) :
    Skims tokens (Feed.Clear kinds) optionalUnionMembers fun _ => Feed.Clear kinds :=
  (skims_takeMark .equals hkinds rfl (by simp)).bind fun _ => skimsTo_taken Feed.OffComma
    (skims_separatedNames _ _ rfl (by simp) hkinds) (skims_pure fun _ h => h)

theorem skims_optionalInterfaces (hkinds : Fresh kinds) (hword : ¬kinds (.keyword .implements)) :
    Skims tokens (Feed.Clear kinds) optionalInterfaces fun _ => Feed.Clear kinds :=
  (skims_takeIf (by simp) hword).bind fun _ => skimsTo_taken Feed.OffComma
    ((skims_separatedNames _ _ rfl (by simp) hkinds).bind fun _ => skims_pure fun _ h => h)
    (skims_pure fun _ h => h)

/-! ## Definitions without a body -/

/-- Behind a schema block there may be any token: it ends with a brace. -/
theorem skims_schemaEntryTail (block : SchemaBlock) (key : String × Span)
    {post : SchemaBlock → Feed → Prop} :
    Skims tokens Feed.OffComma (schemaEntryTail block key) post := by
  rw [schemaEntryTail]
  cases RootOperation.ofKey? key.1 with
  | none => exact skimsTo_fail _
  | some operation =>
    exact (skims_mark .colon (by simp)).bind fun _ => skims_innerComments.bind fun inner =>
      (skims_name "root type name").bind fun type =>
        skimsTo_ite (skimsTo_fail _) (skims_pure fun _ h => h)

theorem skims_schemaBlockTail (texts : List String) (span : Span)
    {post : SchemaBlock → Feed → Prop} :
    Skims tokens Feed.OffComma (schemaBlockTail texts span) post := by
  refine skims_innerComments.bind fun inner => (@skims_mark _ .braceOpen (by simp)
    fun _ => Feed.Opens (MemberKind .braceClose)).bind fun opening => ?_
  refine skims_entries Feed.OffComma rfl (fun block => ?_) (fun block key => ?_) _
  · exact skims_turnInBraces (addDescriptions block) (addDescriptions block) _ opening
  · exact skims_schemaEntryTail block key

/-- A definition ends with a comment that trails it, past commas. -/
theorem skims_definitionComment :
    Skims tokens (Feed.Clear BoundaryKind) trailingComment fun _ => Feed.Opens BoundaryKind :=
  (skims_trailingComment fun _ => boundaryKind_of_comment?).mono_pre fun _ h => h.clear

theorem skims_directiveDefinitionTail (texts : List String) :
    Skims tokens Feed.OffComma (directiveDefinitionTail texts)
      fun _ => Feed.Opens BoundaryKind :=
  (skims_mark .atSign (by simp)).bind fun _ =>
    (skims_expect_offComma (Want.solid_name _)).bind fun _ =>
      (skims_optionalArguments fun _ _ => id).bind fun _ =>
        (skims_takeIf (by simp) id).bind fun _ =>
          ((skims_expect_offComma (Want.solid_keyword _)).mono_pre fun _ h _ => h).bind fun _ =>
            (skims_separatedNames _ _ rfl (by simp) fresh_boundaryKind).bind fun _ =>
              skims_definitionComment.bind fun _ => skims_pure fun _ h => h

theorem skims_scalarTail (texts : List String) :
    Skims tokens Feed.OffComma (scalarTail texts) fun _ => Feed.Opens BoundaryKind :=
  (skims_expect_offComma (Want.solid_name _)).bind fun _ =>
    (skims_directives fresh_boundaryKind).bind fun _ =>
      skims_definitionComment.bind fun _ => skims_pure fun _ h => h

theorem skims_unionTail (texts : List String) :
    Skims tokens Feed.OffComma (unionTail texts) fun _ => Feed.Opens BoundaryKind :=
  (skims_expect_offComma (Want.solid_name _)).bind fun _ =>
    (skims_directives fresh_boundaryKind).bind fun _ =>
      (skims_optionalUnionMembers fresh_boundaryKind).bind fun _ =>
        skims_definitionComment.bind fun _ => skims_pure fun _ h => h

end

end Parser

end SchemaMerge
