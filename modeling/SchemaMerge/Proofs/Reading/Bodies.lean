import SchemaMerge.Proofs.Reading.Lookahead

/-!
# Headers in front of commas

A header without a body may end in commas, and comments may follow these. With the commas the
first of the comments trails the definition and the others describe the next one. Without them all
are read as comments between the header and its body, and those that do not trail are carried over.
So the feeds no longer stand at the same place, but they meet behind the documentation of the next
definition (`Meets`), which is the same.
-/

namespace SchemaMerge

namespace Parser

variable {α β : Type} {tokens : List Token} {feed thin rest : Feed} {texts : List String}

/-! ## Documentation that is read in parts -/

/-- Documentation may be read in two parts, the first of them comments. -/
theorem splitRun_description? (feed : Feed) (tokens : List Token) {comments : List String}
    {mid : Feed} (h : splitRun TokenKind.comment? feed tokens = (comments, mid)) :
    splitRun TokenKind.description? feed tokens =
      (comments ++ (splitRun TokenKind.description? mid mid.tokens).1,
        (splitRun TokenKind.description? mid mid.tokens).2) := by
  induction tokens generalizing feed comments with
  | nil =>
    cases h
    rfl
  | cons token tokens ih =>
    rw [splitRun] at h
    cases hcomment : token.kind.comment? with
    | none =>
      simp only [hcomment] at h
      cases h
      rw [List.nil_append, splitRun_with_tokens feed (token :: tokens) (token :: tokens)]
    | some text =>
      have htext : token.kind.description? = some text := by
        rw [Seam.description?_of_comment? (Option.isSome_of_eq_some hcomment), hcomment]
      simp only [hcomment] at h
      obtain ⟨rfl, rfl⟩ := Prod.mk.inj h
      rw [splitRun]
      simp only [htext, ih _ rfl, List.cons_append]

theorem descriptions_run_eq (feed : Feed) :
    descriptions.run feed =
      .ok (feed.carried ++
          (splitRun TokenKind.description? { feed with carried := [] } feed.tokens).1,
        (splitRun TokenKind.description? { feed with carried := [] } feed.tokens).2) := rfl

/-- Comments that are carried over stand in front of the documentation. -/
theorem descriptions_run_carried (h : descriptions.run feed = .ok (texts, rest))
    (hnil : feed.carried = []) (carried : List String) :
    descriptions.run { feed with carried } = .ok (carried ++ texts, rest) := by
  rw [descriptions_run_eq, hnil] at h
  obtain ⟨rfl, rfl⟩ := Prod.mk.inj (Except.ok.inj h)
  rfl

/-- Comments that are read first are the first of the documentation. -/
theorem exists_descriptions_run_of_comments (h : descriptions.run feed = .ok (texts, rest))
    (hnil : feed.carried = []) {comments : List String} {mid : Feed}
    (hmid : splitRun TokenKind.comment? feed feed.tokens = (comments, mid)) :
    ∃ others, descriptions.run mid = .ok (others, rest) ∧ texts = comments ++ others ∧
      mid.carried = [] := by
  have hfeed : { feed with carried := [] } = feed := by rw [← hnil]
  have hcarried : mid.carried = [] := by
    rw [Seam.splitRun_eq] at hmid
    rw [← hnil, ← (Prod.mk.inj hmid).2]
  have hmidFeed : { mid with carried := [] } = mid := by rw [← hcarried]
  rw [descriptions_run_eq, hfeed, splitRun_description? feed feed.tokens hmid, hnil] at h
  obtain ⟨rfl, rfl⟩ := Prod.mk.inj (Except.ok.inj h)
  refine ⟨_, ?_, rfl, hcarried⟩
  rw [descriptions_run_eq, hmidFeed, hcarried]
  rfl

/-! ## The place behind a definition -/

/-- Behind the documentation that comes next a definition starts, or the text ends. -/
def AtDefinition (feed : Feed) : Prop :=
  ∃ texts rest, descriptions.run feed = .ok (texts, rest) ∧ rest.Faces DefinitionKind

/-- Behind the same documentation, what was carried over included, the feeds stand at the same
place. -/
def Meets (tokens : List Token) (feed thin : Feed) : Prop :=
  ∃ texts rest thinRest, descriptions.run feed = .ok (texts, rest) ∧
    descriptions.run thin = .ok (texts, thinRest) ∧ Thin tokens rest thinRest

theorem AtDefinition.faces (h : AtDefinition feed) : feed.Faces BoundaryKind := by
  obtain ⟨texts, rest, hrun, hrest⟩ := h
  rw [descriptions_run_eq] at hrun
  obtain ⟨-, rfl⟩ := Prod.mk.inj (Except.ok.inj hrun)
  rcases faces_or_of_takeRun (takeRun_run TokenKind.description? { feed with carried := [] }) with
    hfaces | hsame
  · exact Feed.Faces.mono hfaces fun _ => boundaryKind_of_description?
  · rw [hsame] at hrest
    exact Feed.Faces.mono hrest fun _ => And.left

theorem AtDefinition.opens (h : AtDefinition feed) : feed.Opens BoundaryKind :=
  h.faces.opens (fresh_boundaryKind .comma rfl)

theorem skims_descriptions_document :
    Skims tokens (Feed.Opens BoundaryKind) descriptions fun _ => Feed.Opens DefinitionKind :=
  skims_descriptions_opens (fun _ h => h.2) fun _ h => h.elim boundaryKind_of_description? And.left

/-- Feeds at the same place in front of a definition read the same documentation. -/
theorem meets_of_thin (h : Thin tokens feed thin) (hat : AtDefinition feed) :
    Meets tokens feed thin := by
  obtain ⟨texts, rest, hrun, hrest⟩ := hat
  obtain ⟨thinRest, hthinRun, hthin⟩ :=
    skims_descriptions_document.exists_run h hrun (hrest.opens not_definitionKind_comma)
  exact ⟨texts, rest, thinRest, hrun, hthinRun, hthin⟩

theorem SkimsTo.meets {pre : Feed → Prop} {p : Parser α}
    (h : Skims tokens pre p fun _ => Feed.Opens BoundaryKind) :
    SkimsTo tokens (Meets tokens) pre p fun _ => AtDefinition where
  needs hrun hat := h.needs hrun hat.opens
  exists_run hthin hrun hat := by
    obtain ⟨thinRest, hthinRun, hthin⟩ := h.exists_run hthin hrun hat.opens
    exact ⟨thinRest, hthinRun, meets_of_thin hthin hat⟩

theorem SkimsTo.map {rel : Feed → Feed → Prop} {pre post : Feed → Prop} {p : Parser α}
    (h : SkimsTo tokens rel pre p fun _ => post) (finish : α → β) :
    SkimsTo tokens rel pre (p >>= fun a => pure (finish a)) fun _ => post where
  needs {feed rest b} hrun hpost := by
    rw [bind_run] at hrun
    split at hrun
    · next a mid hmid =>
      cases hrun
      exact h.needs hmid hpost
    · cases hrun
  exists_run {feed thin rest b} hthin hrun hpost := by
    rw [bind_run] at hrun
    split at hrun
    · next a mid hmid =>
      cases hrun
      obtain ⟨thinRest, hthinRun, hrel⟩ := h.exists_run hthin hmid hpost
      refine ⟨thinRest, ?_, hrel⟩
      rw [bind_run, hthinRun]
      rfl
    · cases hrun

/-! ## Definitions with a body -/

/-- Behind comments there is no comma, so that none is reached by reading them. -/
theorem not_onComma_of_comments (h : Thin tokens feed thin) (hoff : ¬feed.OnComma)
    (hrun : splitRun TokenKind.comment? feed feed.tokens = (texts, rest)) : ¬rest.OnComma := by
  obtain ⟨done, hfeed, -⟩ := h.exists_done
  obtain ⟨used, hrest, -, hused, -⟩ := hfeed.exists_splitRun hrun
  cases hlast : used.getLast? with
  | none =>
    -- No comment was read, so the feed has not moved.
    obtain rfl := List.getLast?_eq_none_iff.1 hlast
    have htokens : feed.tokens = rest.tokens := hfeed.tokens_eq_append hrest
    rwa [Feed.OnComma, Feed.Faces, Feed.next?, ← htokens]
  | some last =>
    rintro ⟨comma, hcomma, hkind⟩
    have hbefore : last ∈ (done ++ used).getLast? := by
      rw [List.getLast?_append, hlast]
      rfl
    have hnone := (h.commas.of_getLast? hrest.tokens_eq hbefore hcomma hkind).1
    have hsome := hused last (List.mem_of_getLast? hlast)
    rw [hnone] at hsome
    cases hsome

/-- Where neither a comma nor a comment comes next, there is no comment that trails. -/
theorem trailingComment_run_of_not_onComma (hoff : ¬feed.OnComma)
    (hcomment : ∀ token ∈ feed.next?, token.kind.comment? = none) :
    trailingComment.run feed = .ok ([], feed) := by
  cases hnext : feed.next? with
  | some token =>
    exact Seam.trailingComment_run_of_next? hnext (fun hkind => hoff ⟨token, hnext, hkind⟩)
      (hcomment token hnext)
  | none =>
    obtain ⟨file, tokens, lastEnd, carried⟩ := feed
    obtain rfl : tokens = [] := List.head?_eq_none_iff.1 hnext
    rfl

variable {what : String} {member : List String → String × Span → Parser β}

/-- A header that no body follows carries over what does not trail it. -/
theorem headerComments_run_of_not_nextIs {comments : List String} {mid : Feed}
    (hmid : splitRun TokenKind.comment? feed feed.tokens = (comments, mid))
    (hnil : mid.carried = []) (hbrace : mid.nextIs (.punctuator .braceOpen) = false) :
    headerComments.run feed = .ok (comments.take (Seam.ownComments feed),
      { mid with carried := comments.drop (Seam.ownComments feed) }) := by
  rw [Seam.headerComments_run hmid, hbrace, Bool.or_false]
  cases comments with
  | nil =>
    have hmidFeed : { mid with carried := [] } = mid := by rw [← hnil]
    rw [List.take_nil, List.drop_nil, hmidFeed]
    rfl
  | cons => rfl

theorem bodyTail_run_of_not_nextIs {finish : List String → List β → List String → α}
    {comments : List String} {mid : Feed}
    (hmid : splitRun TokenKind.comment? feed feed.tokens = (comments, mid))
    (hnil : mid.carried = []) (hoff : ¬mid.OnComma)
    (hbrace : mid.nextIs (.punctuator .braceOpen) = false) :
    (Seam.bodyTail (optionalMembers what member) finish).run feed =
      .ok (finish (comments.take (Seam.ownComments feed)) [] [],
        { mid with carried := comments.drop (Seam.ownComments feed) }) := by
  have hmembers := Seam.optionalMembers_run_of_not_nextIs what member
    (show Feed.nextIs { mid with carried := comments.drop (Seam.ownComments feed) }
      (.punctuator .braceOpen) = false from hbrace)
  have hcomment := next?_of_splitRun hmid
  have htrailing := @trailingComment_run_of_not_onComma
    { mid with carried := comments.drop (Seam.ownComments feed) } hoff hcomment
  simp only [Seam.bodyTail, bind_run, headerComments_run_of_not_nextIs hmid hnil hbrace, hmembers,
    htrailing, pure_run]

/-- In front of commas a header has no comments, and its definition no body. -/
theorem exists_bodyTail_run_of_onComma {finish : List String → List β → List String → α}
    (hon : feed.OnComma) {a : α}
    (hrun : (Seam.bodyTail (optionalMembers what member) finish).run feed = .ok (a, rest)) :
    ∃ trailing, a = finish [] [] trailing ∧ trailingComment.run feed = .ok (trailing, rest) := by
  have hcomma : ∀ token ∈ feed.next?, token.kind.comment? = none := by
    intro token ht
    obtain ⟨comma, hcomma, hkind⟩ := hon
    obtain rfl := Option.some.inj (hcomma.symm.trans ht)
    rw [hkind]
    rfl
  have hheader : headerComments.run feed = .ok ([], feed) := by
    rw [Seam.headerComments_run (Except.ok.inj (takeRun_run_of_forall_next? hcomma))]
    rfl
  have hmembers := Seam.optionalMembers_run_of_not_nextIs what member
    (Feed.Faces.nextIs_eq_false hon (by simp))
  simp only [Seam.bodyTail, bind_run, hheader, hmembers] at hrun
  split at hrun
  · next trailing rest' htrailing =>
    cases hrun
    exact ⟨trailing, rfl, htrailing⟩
  · cases hrun

/-- Of the comments behind a header, the one that trails it is its own. -/
theorem take_ownComments {comments : List String} {mid : Feed}
    (hmid : splitRun TokenKind.comment? feed feed.tokens = (comments, mid)) :
    comments.take (Seam.ownComments feed) = feed.trailing?.toList := by
  unfold Seam.ownComments
  cases htrailing : feed.trailing? with
  | none => rfl
  | some text =>
    obtain ⟨span, hnext⟩ := Feed.exists_next?_of_trailing? htrailing
    obtain ⟨left, hleft⟩ := List.head?_eq_some_iff.1 hnext
    rw [hleft, splitRun] at hmid
    obtain ⟨rfl, -⟩ := Prod.mk.inj hmid
    rfl

theorem trailing_eq_toList (hmid : skipCommas.run feed = .ok ((), thin))
    (h : trailingComment.run feed = .ok (texts, rest)) : texts = thin.trailing?.toList := by
  rw [trailingComment_run_of_skipCommas hmid] at h
  cases htrailing : thin.trailing? with
  | none =>
    simp only [htrailing] at h
    cases h
    rfl
  | some text =>
    simp only [htrailing] at h
    cases h
    rfl

/-- A comment that trails is the first of the documentation in front of which it stands. -/
theorem descriptions_run_of_trailingComment {mid : Feed} {trailing : List String}
    (hskip : skipCommas.run feed = .ok ((), mid))
    (htrailing : trailingComment.run feed = .ok (trailing, rest)) (hnil : mid.carried = [])
    {left : Feed} (hrest : descriptions.run rest = .ok (texts, left)) :
    descriptions.run mid = .ok (trailing ++ texts, left) := by
  rw [trailingComment_run_of_skipCommas hskip] at htrailing
  split at htrailing
  · next text hcomment =>
    cases htrailing
    obtain ⟨span, hnext⟩ := Feed.exists_next?_of_trailing? hcomment
    obtain ⟨behind, hbehind⟩ := List.head?_eq_some_iff.1 hnext
    obtain ⟨file, tokens, lastEnd, carried⟩ := mid
    obtain rfl : tokens = _ := hbehind
    obtain rfl : carried = [] := hnil
    rw [descriptions_run_eq] at hrest ⊢
    obtain ⟨rfl, rfl⟩ := Prod.mk.inj (Except.ok.inj hrest)
    have hsplit := @splitRun_with_tokens _ TokenKind.description?
      ⟨file, ⟨.comment text, span⟩ :: behind, some span.stop, []⟩ behind behind
    rw [splitRun]
    simp only [TokenKind.description?, Feed.advance, List.nil_append, List.singleton_append]
    rw [← hsplit]
  · cases htrailing
    exact hrest

/-- Where comments have been skipped over commas, the first of them trails the header. -/
theorem exists_bodyTail_run_past_commas {finish : List String → List β → List String → α}
    (hfinish : ∀ inner members trailing,
      finish inner members trailing = finish [] members (inner ++ trailing))
    (h : Thin tokens feed thin) (hon : feed.OnComma) {a : α}
    (hrun : (Seam.bodyTail (optionalMembers what member) finish).run feed = .ok (a, rest))
    (hat : AtDefinition rest) :
    ∃ thinRest, (Seam.bodyTail (optionalMembers what member) finish).run thin =
      .ok (a, thinRest) ∧ Meets tokens rest thinRest := by
  obtain ⟨trailing, rfl, htrailing⟩ := exists_bodyTail_run_of_onComma hon hrun
  obtain ⟨mid, hskip⟩ := exists_skipCommas_run_eq feed
  obtain ⟨-, hmid⟩ := h.exists_skipCommas hskip
  have hoff := not_onComma_of_skipCommas_run hskip
  obtain ⟨texts, left, hrest, hleft⟩ := hat
  have hall := descriptions_run_of_trailingComment hskip htrailing hmid.carried_eq.1 hrest
  -- Without commas the comments are read behind the header, and then the documentation.
  obtain ⟨all, left', thinLeft, hall', hthinAll, hthinLeft⟩ :=
    meets_of_thin hmid ⟨_, _, hall, hleft⟩
  obtain ⟨rfl, rfl⟩ := Prod.mk.inj (Except.ok.inj (hall.symm.trans hall'))
  obtain ⟨comments, thinMid, hcomments⟩ :
      ∃ comments thinMid, splitRun TokenKind.comment? thin thin.tokens = (comments, thinMid) :=
    ⟨_, _, rfl⟩
  obtain ⟨others, hothers, hsplit, hnil⟩ :=
    exists_descriptions_run_of_comments hthinAll h.carried_eq.2 hcomments
  have hthinFaces : thinMid.Faces BoundaryKind :=
    AtDefinition.faces ⟨others, thinLeft, hothers, hthinLeft.faces hleft not_definitionKind_comma⟩
  have hown : comments.take (Seam.ownComments thin) = trailing := by
    rw [take_ownComments hcomments, hmid.trailing?_eq hoff, trailing_eq_toList hskip htrailing]
  have hthinRun := @bodyTail_run_of_not_nextIs _ _ _ what member finish _ _ hcomments hnil
    (hthinFaces.not_onComma nofun) (hthinFaces.nextIs_eq_false nofun)
  have hcarried := descriptions_run_carried hothers hnil (comments.drop (Seam.ownComments thin))
  rw [hown, hfinish trailing, List.append_nil] at hthinRun
  rw [← List.take_append_drop (Seam.ownComments thin) comments, hown, List.append_assoc] at hsplit
  rw [← List.append_cancel_left hsplit] at hcarried
  exact ⟨_, hthinRun, texts, left, thinLeft, hrest, hcarried, hthinLeft⟩

theorem Meets.carry (h : Meets tokens feed thin) (hfeed : feed.carried = [])
    (hthin : thin.carried = []) (carried : List String) :
    Meets tokens { feed with carried } { thin with carried } := by
  obtain ⟨texts, rest, thinRest, hrun, hthinRun, hrest⟩ := h
  exact ⟨_, rest, thinRest, descriptions_run_carried hrun hfeed carried,
    descriptions_run_carried hthinRun hthin carried, hrest⟩

theorem AtDefinition.of_carry {carried : List String} (h : AtDefinition { feed with carried })
    (hfeed : feed.carried = []) : AtDefinition feed := by
  obtain ⟨texts, rest, hrun, hrest⟩ := h
  have hown := descriptions_run_carried (descriptions_run_eq feed) hfeed carried
  obtain ⟨-, rfl⟩ := Prod.mk.inj (Except.ok.inj (hown.symm.trans hrun))
  exact ⟨_, _, descriptions_run_eq feed, hrest⟩

/-- In front of no comma the same comments are read, and a body follows in both lists or in none. -/
theorem exists_bodyTail_run_of_not_onComma {finish : List String → List β → List String → α}
    (hmember : ∀ texts name, Skims tokens (Feed.Clear (MemberKind .braceClose))
      (member texts name) fun _ => Feed.Opens (MemberKind .braceClose))
    (h : Thin tokens feed thin) (hoff : ¬feed.OnComma) {a : α}
    (hrun : (Seam.bodyTail (optionalMembers what member) finish).run feed = .ok (a, rest))
    (hat : AtDefinition rest) :
    ∃ thinRest, (Seam.bodyTail (optionalMembers what member) finish).run thin =
      .ok (a, thinRest) ∧ Meets tokens rest thinRest := by
  obtain ⟨comments, mid, hcomments⟩ :
      ∃ comments mid, splitRun TokenKind.comment? feed feed.tokens = (comments, mid) := ⟨_, _, rfl⟩
  have hmidOff := not_onComma_of_comments h hoff hcomments
  obtain ⟨thinMid, hthinComments, hmid⟩ :=
    h.exists_splitRun rfl hcomments fun hon => absurd hon hmidOff
  have hbrace : thinMid.nextIs (.punctuator .braceOpen) = mid.nextIs (.punctuator .braceOpen) :=
    hmid.nextIs_eq (by simp) fun hon => absurd hon hmidOff
  cases hbody : comments.isEmpty || mid.nextIs (.punctuator .braceOpen) with
  | true =>
    have hheader : headerComments.run feed = .ok (comments, mid) := by
      rw [Seam.headerComments_run hcomments, if_pos hbody]
    have hthinHeader : headerComments.run thin = .ok (comments, thinMid) := by
      rw [Seam.headerComments_run hthinComments, hbrace, if_pos hbody]
    -- The comments are the definition's own, and its end is read behind them.
    have hmembers := @skims_optionalMembers _ _ _ what _ hmember fresh_boundaryKind
    have hskims := SkimsTo.meets (hmembers.bind fun members =>
      skims_definitionComment.bind fun trailing =>
        @skims_pure _ _ _ _ (finish comments members trailing) fun _ h => h)
    rw [Seam.bodyTail, bind_run, hheader] at hrun
    rw [Seam.bodyTail, bind_run, hthinHeader]
    exact hskims.exists_run hmid hrun hat
  | false =>
    -- The definition ends here, and the same comments are carried over.
    simp only [Bool.or_eq_false_iff] at hbody
    have hown : Seam.ownComments thin = Seam.ownComments feed := by
      rw [Seam.ownComments, h.trailing?_eq hoff, Seam.ownComments]
    have hthinOff : ¬thinMid.OnComma := by
      rwa [Feed.OnComma, Feed.Faces, hmid.next?_eq_of_not_onComma hmidOff]
    rw [bodyTail_run_of_not_nextIs hcomments hmid.carried_eq.1 hmidOff hbody.2] at hrun
    cases hrun
    rw [bodyTail_run_of_not_nextIs hthinComments hmid.carried_eq.2 hthinOff (hbrace.trans hbody.2),
      hown]
    have hmeets := meets_of_thin hmid (hat.of_carry hmid.carried_eq.1)
    exact ⟨_, rfl, hmeets.carry hmid.carried_eq.1 hmid.carried_eq.2 _⟩

/-- A definition with a body, or without one where commas come instead. -/
theorem skimsTo_bodyTail {finish : List String → List β → List String → α}
    (hfinish : ∀ inner members trailing,
      finish inner members trailing = finish [] members (inner ++ trailing))
    (hmember : ∀ texts name, Skims tokens (Feed.Clear (MemberKind .braceClose))
      (member texts name) fun _ => Feed.Opens (MemberKind .braceClose)) :
    SkimsTo tokens (Meets tokens) (Feed.Clear BoundaryKind)
      (Seam.bodyTail (optionalMembers what member) finish) fun _ => AtDefinition where
  needs {feed rest a} hrun hat hon := by
    obtain ⟨trailing, -, htrailing⟩ := exists_bodyTail_run_of_onComma hon hrun
    exact (@skims_definitionComment tokens).needs htrailing hat.opens hon
  exists_run {feed thin rest a} h hrun hat := by
    by_cases hon : feed.OnComma
    · exact exists_bodyTail_run_past_commas hfinish h hon hrun hat
    · exact exists_bodyTail_run_of_not_onComma hmember h hon hrun hat

end Parser

end SchemaMerge
