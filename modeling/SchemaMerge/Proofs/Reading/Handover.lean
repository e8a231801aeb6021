import SchemaMerge.Proofs.Reading.Across
import SchemaMerge.Proofs.Reading.Rules

/-!
# Where definitions meet at a seam

A definition that may have a body ends without one at the seam, and then the comments behind it are
read too early and carried over to the next definition. `Handover` says how the two feeds may stand
after a definition: in front of the seam, at the same place; or the one at the end and the other
behind the comments that follow, which it carries. A document is read across the seam if no comment
in front of it is carried over it (`EndsPlainly`): every definition hands over to what comes next
(`Seam.handsOver_definitionTail`).
-/

namespace SchemaMerge

open SchemaMerge.Parser

/-- The tokens end with no description, and if they end in commas, with no comment in front of these
that stands on a line of its own. -/
structure EndsPlainly (tokens : List Token) : Prop where
  last : ∀ token ∈ tokens.getLast?, token.kind.description? = none
  comment : ∀ before comment commas, tokens = before ++ comment :: commas →
    comment.kind.comment?.isSome → (∀ token ∈ commas, token.kind = .punctuator .comma) →
      ∃ last ∈ before.getLast?, last.span.stop.line = comment.span.start.line

namespace Seam

/-- The tokens behind the seam. -/
def rest (s : Seam) : List Token := s.next :: s.behind

/-- The comments behind the seam. -/
def comments (s : Seam) : List String :=
  (s.rest.takeWhile (inRun TokenKind.comment?)).filterMap fun token => token.kind.comment?

/-- The tokens behind the seam and the comments that follow it. -/
def others (s : Seam) : List Token := s.rest.dropWhile (inRun TokenKind.comment?)

/-- A seam between whole documents: the tokens in front of it end plainly if there are any behind
it, and behind the comments that follow stands a token that may stand between definitions. The text
behind the seam has an end. -/
structure Whole (s : Seam) : Prop where
  inner : ∀ token ∈ s.tokens, token.kind ≠ .endOfText
  ends : s.next.kind = .endOfText ∨ EndsPlainly s.tokens ∧ CommentsApart s.tokens
  opens : ∃ token ∈ s.others.head?, token.kind.opens = true
  closes : ∃ token ∈ s.rest, token.kind = .endOfText

variable {s : Seam} {carried : List String} {feed other : Feed}

/-! ## Feeds that meet no comment and no comma -/

theorem trailingComment_run_of_next? {token : Token} (h : feed.next? = some token)
    (hcomma : token.kind ≠ .punctuator .comma) (hcomment : token.kind.comment? = none) :
    trailingComment.run feed = .ok ([], feed) := by
  have hskip : skipCommas.run feed = .ok ((), feed) := by
    rw [skipCommas, bind_run, takeRun_run_of_next? h (if_neg hcomma)]
    rfl
  have htrails : feed.trailing? = none :=
    Option.eq_none_iff_forall_ne_some.2 fun text ht => by
      obtain ⟨span, hnext⟩ := Feed.exists_next?_of_trailing? ht
      obtain rfl := Option.some.inj (h.symm.trans hnext)
      cases hcomment
  rw [trailingComment, bind_run, hskip]
  simp only [bind_run, feed_run, htrails, pure_run]

theorem optionalMembers_run_of_not_nextIs {α : Type} (what : String)
    (member : List String → String × Span → Parser α)
    (h : feed.nextIs (.punctuator .braceOpen) = false) :
    (optionalMembers what member).run feed = .ok ([], feed) := by
  simp [optionalMembers, nextIs, h]

/-! ## The comments between header and body -/

/-- How many comments a header without a body keeps. -/
def ownComments (feed : Feed) : Nat := if feed.trailing?.isSome then 1 else 0

theorem headerComments_run {comments : List String} {rest : Feed}
    (h : splitRun TokenKind.comment? feed feed.tokens = (comments, rest)) :
    headerComments.run feed =
      if comments.isEmpty || rest.nextIs (.punctuator .braceOpen) then .ok (comments, rest)
      else .ok (comments.take (ownComments feed),
        { rest with carried := comments.drop (ownComments feed) }) := by
  simp only [headerComments, innerComments, nextIs, bind_run, feed_run, takeRun_run, pure_run, h]
  split <;> rfl

/-- The one feed stands at the end, and the other behind the comments that follow, which it carries
over. -/
structure Over (s : Seam) (feed other : Feed) : Prop where
  tokens : feed.tokens = [s.stop]
  proper : ∀ token ∈ s.tokens, token.kind.isProper = true
  exists_other : ∃ lastEnd, other = ⟨s.move.file s.file, s.others, lastEnd, s.comments⟩

/-- In front of the seam stands more than commas, or nothing stands behind it, and no body comes. -/
structure Loose (s : Seam) (feed : Feed) : Prop where
  not_nextIs : feed.nextIs (.punctuator .braceOpen) = false
  exists_token : s.next.kind = .endOfText ∨
    ∃ token ∈ feed.tokens, token.kind ≠ .punctuator .comma ∧ token.kind ≠ .endOfText

theorem At.trailing?_of_line_eq {done left : List Token} {last comment : Token} {text : String}
    (hlast : last ∈ done.getLast?) (hcomment : comment.kind = .comment text)
    (hline : last.span.stop.line = comment.span.start.line) :
    (s.short carried done (comment :: left)).trailing? = some text := by
  obtain ⟨kind, span⟩ := comment
  obtain rfl : kind = .comment text := hcomment
  have hlast : done.getLast? = some last := hlast
  simp [Feed.trailing?, Feed.next?, short, hlast, hline]

/-- Comments in a row that are carried over are followed by more than commas: the last of them
stands on a line of its own. -/
theorem exists_ne_comma (hplain : EndsPlainly s.tokens) (hapart : CommentsApart s.tokens)
    {done taken left : List Token} (htokens : s.tokens = done ++ (taken ++ left))
    (htaken : ∀ token ∈ taken, token.kind.comment?.isSome)
    (hcarried : (taken.filterMap fun token => token.kind.comment?).drop
      (ownComments (s.short [] done (taken ++ left))) ≠ []) :
    ∃ token ∈ left, token.kind ≠ .punctuator .comma := by
  refine Decidable.byContradiction fun hcommas => ?_
  simp only [not_exists, not_and, Decidable.not_not] at hcommas
  cases hend : taken.getLast? with
  | none =>
    rw [List.getLast?_eq_none_iff] at hend
    exact hcarried (by rw [hend, List.filterMap_nil, List.drop_nil])
  | some comment =>
    obtain ⟨before, rfl⟩ := List.getLast?_eq_some_iff.1 hend
    have hcomment := htaken comment (by simp)
    obtain ⟨last, hlast, hline⟩ := hplain.comment (done ++ before) comment left
      (by simpa using htokens) hcomment hcommas
    cases hprevious : before.getLast? with
    | none =>
      -- The only comment trails, so it is not carried over.
      obtain rfl := List.getLast?_eq_none_iff.1 hprevious
      obtain ⟨text, htext⟩ := Option.isSome_iff_exists.1 hcomment
      have hkind : comment.kind = .comment text := by
        cases hk : comment.kind <;> simp_all [TokenKind.comment?]
      rw [List.append_nil] at hlast
      have htrails : (s.short [] done ([] ++ [comment] ++ left)).trailing? = some text :=
        At.trailing?_of_line_eq hlast hkind hline
      rw [ownComments, htrails] at hcarried
      exact hcarried (by simp [htext])
    | some previous =>
      -- The comment before it stands on an earlier line.
      obtain ⟨first, rfl⟩ := List.getLast?_eq_some_iff.1 hprevious
      obtain rfl : previous = last := by simpa using hlast
      have hsplit : s.tokens = done ++ first ++ previous :: comment :: left := by
        simpa using htokens
      rw [CommentsApart, hsplit, List.isChain_append_cons_cons] at hapart
      have hlt := hapart.2.1 (htaken previous (by simp)) hcomment
      omega

/-- A token that may stand between definitions, comments apart. -/
theorem Whole.exists_others (hs : s.Whole) : ∃ token tokens, s.others = token :: tokens ∧
    token.kind.opens = true ∧ token.kind.comment? = none := by
  obtain ⟨token, htoken, hopens⟩ := hs.opens
  obtain ⟨tokens, hothers⟩ := List.head?_eq_some_iff.1 htoken
  refine ⟨token, tokens, hothers, hopens, ?_⟩
  have hnot := List.head?_dropWhile_not (inRun TokenKind.comment?) s.rest
  rw [show (s.rest.dropWhile (inRun TokenKind.comment?)).head? = some token from htoken] at hnot
  simpa [inRun] using hnot

theorem ne_of_opens {kind other : TokenKind} (h : kind.opens = true) (ho : other.opens = false) :
    kind ≠ other := by
  rintro rfl
  rw [h] at ho
  cases ho

/-- At the seam the comments behind it are read, and carried over. -/
theorem exists_headerComments_seam (hs : s.Whole) {done : List Token} (htokens : s.tokens = done)
    (hdone : ∀ token ∈ done, token.kind.isProper = true) {texts : List String} {rest : Feed}
    (hnext : (s.next.kind.comment?).isSome)
    (hrun : headerComments.run (s.short [] done []) = .ok (texts, rest)) :
    ∃ otherRest, headerComments.run (s.long [] done []) = .ok (texts, otherRest) ∧
      s.Over rest otherRest := by
  obtain ⟨token, tokens, hothers, hopens, hcomment⟩ := hs.exists_others
  have hstop : splitRun TokenKind.comment? (s.short [] done []) [s.stop] =
      ([], s.short [] done []) := by
    simpa using @splitRun_short s [] _ _ proper_comment? done []
  obtain ⟨lastEnd, hrest⟩ : ∃ lastEnd, splitRun TokenKind.comment? (s.long [] done []) s.rest =
      (s.comments, ⟨s.move.file s.file, s.others, lastEnd, []⟩) := ⟨_, splitRun_eq ..⟩
  have hat : s.At [] (s.short [] done []) (s.long [] done []) :=
    ⟨done, [], by simpa using htokens, hdone, rfl, rfl⟩
  have htrails : (s.long [] done []).trailing? = none := hat.trailing?_eq.trans
    (Option.eq_none_iff_forall_ne_some.2 fun text => kind_stop_of_trailing? (s := s))
  rw [headerComments_run hstop] at hrun
  obtain ⟨rfl, rfl⟩ : [] = texts ∧ s.short [] done [] = rest := by simpa using hrun
  have hcomments : s.comments ≠ [] := by
    obtain ⟨text, htext⟩ := Option.isSome_iff_exists.1 hnext
    simp [comments, Seam.rest, inRun, htext]
  have hnot : token.kind ≠ .punctuator .braceOpen := ne_of_opens hopens rfl
  refine ⟨⟨s.move.file s.file, s.others, lastEnd, s.comments⟩, ?_, rfl, htokens ▸ hdone,
    lastEnd, rfl⟩
  rw [headerComments_run hrest, ownComments, htrails,
    if_neg (by simp [hcomments, Feed.nextIs, Feed.next?, hothers, hnot])]
  rfl

theorem description?_of_comment? {kind : TokenKind} (h : kind.comment?.isSome) :
    kind.description? = kind.comment? := by
  cases kind <;> simp_all [TokenKind.comment?, TokenKind.description?]

theorem isSome_description? {kind : TokenKind} (h : kind.comment?.isSome) :
    kind.description?.isSome := by
  rw [description?_of_comment? h]
  exact h

/-- No run of comments comes to a seam that is followed by one. -/
theorem Whole.eq_nil_of_comments (hs : s.Whole) {done left : List Token}
    (htokens : s.tokens = done ++ left) (hleft : left.dropWhile (inRun TokenKind.comment?) = [])
    (hnext : s.next.kind.comment?.isSome) : left = [] := by
  have hplain : EndsPlainly s.tokens := by
    rcases hs.ends with hend | hends
    · rw [hend] at hnext
      cases hnext
    · exact hends.1
  cases hlast : left.getLast? with
  | none => exact List.getLast?_eq_none_iff.1 hlast
  | some last =>
    have hcomment := List.dropWhile_eq_nil_iff.1 hleft last (List.mem_of_getLast? hlast)
    have hnone := hplain.last last (by simp [htokens, List.getLast?_append, hlast])
    exact absurd hnone (Option.isSome_iff_ne_none.1 (isSome_description? hcomment))

/-- Comments that are carried over in front of the seam leave a loose end. -/
theorem loose_of_carried (hs : s.Whole) {done taken left : List Token}
    (htokens : s.tokens = done ++ (taken ++ left))
    (htaken : ∀ token ∈ taken, token.kind.comment?.isSome)
    (hbody : (s.short [] (done ++ taken) left).nextIs (.punctuator .braceOpen) = false)
    (hcarried : (taken.filterMap fun token => token.kind.comment?).drop
      (ownComments (s.short [] done (taken ++ left))) ≠ []) (carried : List String) :
    s.Loose (s.short carried (done ++ taken) left) where
  not_nextIs := hbody
  exists_token := hs.ends.imp_right fun hends => by
    obtain ⟨token, ht, hne⟩ := exists_ne_comma hends.1 hends.2 htokens htaken hcarried
    exact ⟨token, List.mem_append_left _ ht, hne, hs.inner token (by simp [htokens, ht])⟩

/-- In front of the seam the same comments are read, and the same ones carried over. -/
theorem exists_headerComments_inside (hs : s.Whole) {done left : List Token}
    (htokens : s.tokens = done ++ left) (hdone : ∀ token ∈ done, token.kind.isProper = true)
    (hnext : left.dropWhile (inRun TokenKind.comment?) = [] → s.next.kind.comment? = none)
    {texts : List String} {rest : Feed}
    (hrun : headerComments.run (s.short [] done left) = .ok (texts, rest)) :
    ∃ otherRest carried, headerComments.run (s.long [] done left) = .ok (texts, otherRest) ∧
      s.At carried rest otherRest ∧ (carried = [] ∨ s.Loose rest) := by
  have hat : s.At [] (s.short [] done left) (s.long [] done left) :=
    ⟨done, left, htokens, hdone, rfl, rfl⟩
  have hsplit : left = left.takeWhile (inRun TokenKind.comment?) ++
      left.dropWhile (inRun TokenKind.comment?) := List.takeWhile_append_dropWhile.symm
  have htaken : ∀ token ∈ left.takeWhile (inRun TokenKind.comment?),
      inRun TokenKind.comment? token = true := fun token ht => List.mem_takeWhile_imp ht
  rw [headerComments_run (splitRun_short proper_comment? done left)] at hrun
  rw [headerComments_run (splitRun_long done hnext), ownComments, hat.trailing?_eq, ← ownComments]
  generalize left.takeWhile (inRun TokenKind.comment?) = taken at *
  generalize left.dropWhile (inRun TokenKind.comment?) = left' at *
  subst hsplit
  have htokens' : s.tokens = done ++ taken ++ left' := by simpa using htokens
  have hproper : ∀ token ∈ done ++ taken, token.kind.isProper = true :=
    List.forall_mem_append.2 ⟨hdone, fun token ht =>
      (proper_comment? _ _ (Option.some_get (htaken token ht)).symm).1⟩
  have hat' : s.At [] (s.short [] (done ++ taken) left') (s.long [] (done ++ taken) left') :=
    ⟨done ++ taken, left', htokens', hproper, rfl, rfl⟩
  rw [hat'.nextIs_eq rfl]
  split at hrun
  · next hbody =>
    obtain ⟨rfl, rfl⟩ := Prod.mk.inj (Except.ok.inj hrun)
    exact ⟨_, [], if_pos hbody, hat', .inl rfl⟩
  · next hbody =>
    obtain ⟨rfl, rfl⟩ := Prod.mk.inj (Except.ok.inj hrun)
    refine ⟨_, _, if_neg hbody, ⟨done ++ taken, left', htokens', hproper, rfl, rfl⟩, ?_⟩
    refine (Decidable.em _).imp_right fun hcarried => ?_
    simp only [Bool.or_eq_true, not_or, Bool.not_eq_true] at hbody
    exact loose_of_carried hs htokens htaken hbody.2 hcarried _

theorem exists_headerComments (hs : s.Whole) (h : s.At [] feed other) {texts : List String}
    {rest : Feed} (hrun : headerComments.run feed = .ok (texts, rest)) :
    ∃ otherRest, headerComments.run other = .ok (texts, otherRest) ∧
      (s.Over rest otherRest ∨
        ∃ carried, s.At carried rest otherRest ∧ (carried = [] ∨ s.Loose rest)) := by
  obtain ⟨done, left, htokens, hdone, rfl, rfl⟩ := h
  by_cases hseam : left.dropWhile (inRun TokenKind.comment?) = [] ∧ s.next.kind.comment?.isSome
  · obtain rfl := hs.eq_nil_of_comments htokens hseam.1 hseam.2
    obtain ⟨otherRest, hother, hover⟩ :=
      exists_headerComments_seam hs (by simpa using htokens) hdone hseam.2 hrun
    exact ⟨otherRest, hother, .inl hover⟩
  · have hnext : left.dropWhile (inRun TokenKind.comment?) = [] → s.next.kind.comment? = none :=
      fun hnil => Option.not_isSome_iff_eq_none.1 fun hnext => hseam ⟨hnil, hnext⟩
    obtain ⟨otherRest, carried, hother, hat, hstands⟩ :=
      exists_headerComments_inside hs htokens hdone hnext hrun
    exact ⟨otherRest, hother, .inr ⟨carried, hat, hstands⟩⟩

/-! ## The end of a definition -/

theorem exists_skipCommas (carried : List String) (done : List Token) {left : List Token}
    (hloose : ∃ token ∈ (s.short carried done left).tokens,
      token.kind ≠ .punctuator .comma ∧ token.kind ≠ .endOfText) :
    ∃ taken next more, left = taken ++ next :: more ∧
      skipCommas.run (s.short carried done left) =
        .ok ((), s.short carried (done ++ taken) (next :: more)) := by
  obtain ⟨token, ht, hcomma, hend⟩ := hloose
  have hmem : token ∈ left := (List.mem_append.1 ht).resolve_right fun hstop =>
    hend (List.mem_singleton.1 hstop ▸ s.kind_stop)
  have hsplit := @splitRun_short s carried _ _ proper_comma done left
  obtain ⟨next, more, hmore⟩ := List.exists_cons_of_ne_nil (l := left.dropWhile
    (inRun fun kind => if kind = .punctuator .comma then some () else none)) fun hnil =>
      absurd (List.dropWhile_eq_nil_iff.1 hnil token hmem) (by simp [inRun, hcomma])
  rw [hmore] at hsplit
  refine ⟨_, next, more, hmore ▸ List.takeWhile_append_dropWhile.symm, ?_⟩
  rw [skipCommas, bind_run, takeRun_run,
    show (s.short carried done left).tokens = left ++ [s.stop] from rfl, hsplit]
  rfl

/-- What is left of loose tokens behind a trailing comment is not all: the tokens do not end with
one. -/
theorem ne_of_trailingComment (hs : s.Whole) (hend : s.next.kind ≠ .endOfText)
    (h : s.At carried feed other)
    (hloose : ∃ token ∈ feed.tokens, token.kind ≠ .punctuator .comma ∧ token.kind ≠ .endOfText)
    {texts : List String} {rest : Feed} (hrun : trailingComment.run feed = .ok (texts, rest)) :
    rest.tokens ≠ [s.stop] := by
  have hplain := (hs.ends.resolve_left hend).1
  obtain ⟨done, left, htokens, hdone, rfl, rfl⟩ := h
  obtain ⟨taken, next, more, rfl, hskip⟩ := exists_skipCommas carried done hloose
  simp only [trailingComment, bind_run, hskip, feed_run] at hrun
  split at hrun
  · next text htrails =>
    obtain ⟨-, rfl⟩ := Prod.mk.inj (Except.ok.inj hrun)
    intro hrest
    obtain rfl : more = [] := by simpa [short, Feed.advance] using hrest
    obtain ⟨span, hnext⟩ := Feed.exists_next?_of_trailing? htrails
    obtain rfl : next = _ := Option.some.inj hnext
    have hnone := hplain.last ⟨.comment text, span⟩ (by simp [htokens])
    cases hnone
  · obtain ⟨-, rfl⟩ := Prod.mk.inj (Except.ok.inj hrun)
    simp [short]

/-- How the feeds stand behind a definition: at the same place, where comments that are carried over
have a definition in front of the seam to describe; or the one at the end, and the other behind the
comments that follow. -/
inductive Handover (s : Seam) (feed other : Feed) : Prop
  | inside {carried : List String} : s.At carried feed other →
    (carried = [] ∨ s.next.kind = .endOfText ∨ feed.tokens ≠ [s.stop]) → Handover s feed other
  | past : s.Over feed other → Handover s feed other

/-- Where `p` succeeds on the list that ends, `q` succeeds on the other with the moved value, and
leaves it to what comes next. -/
def HandsOver (s : Seam) {α : Type} (p q : Parser α) (f : α → α) : Prop :=
  ∀ feed other, s.At [] feed other → ∀ a rest, p.run feed = .ok (a, rest) →
    ∃ otherRest, q.run other = .ok (f a, otherRest) ∧ s.Handover rest otherRest

section

variable {α β : Type} {p q : Parser α} {f : α → α}

theorem Follows.handsOver (h : s.Follows [] p q f) : s.HandsOver p q f := by
  intro feed other hfeed a rest hrun
  obtain ⟨otherRest, hother, hat⟩ := h.exists hfeed hrun
  exact ⟨otherRest, hother, .inside hat (.inl rfl)⟩

theorem Follows.bind_handsOver {next next' : α → Parser β} {g : β → β} (hp : s.Follows [] p q f)
    (hnext : ∀ a, s.HandsOver (next a) (next' (f a)) g) :
    s.HandsOver (p >>= next) (q >>= next') g := by
  intro feed other hfeed b rest hrun
  rw [bind_run] at hrun
  split at hrun
  · next a mid hmid =>
    obtain ⟨otherMid, hother, hat⟩ := hp.exists hfeed hmid
    rw [bind_run, hother]
    exact hnext a mid otherMid hat b rest hrun
  · cases hrun

theorem HandsOver.map {finish finish' : α → β} {g : β → β} (hp : s.HandsOver p q f)
    (hfinish : ∀ a, finish' (f a) = g (finish a)) :
    s.HandsOver (p >>= fun a => pure (finish a)) (q >>= fun a => pure (finish' a)) g := by
  intro feed other hfeed b rest hrun
  rw [bind_run] at hrun
  split at hrun
  · next a mid hmid =>
    obtain ⟨otherMid, hother, hover⟩ := hp feed other hfeed a mid hmid
    obtain ⟨rfl, rfl⟩ := Prod.mk.inj (Except.ok.inj hrun)
    refine ⟨otherMid, ?_, hover⟩
    rw [bind_run, hother, ← hfinish]
    rfl
  · cases hrun

end

section

variable {β : Type} {what : String} {member : List String → String × Span → Parser β} {f : β → β}
  {members : List β} {trailing : List String} {rest₁ rest₂ : Feed}

/-- At the end there are no members and no trailing comment, and neither are there where the
comments behind the seam have been read. -/
theorem Over.exists_members_trailingComment (hs : s.Whole) (hover : s.Over feed other)
    (h₁ : (optionalMembers what member).run feed = .ok (members, rest₁))
    (h₂ : trailingComment.run rest₁ = .ok (trailing, rest₂)) :
    ∃ other₁ other₂, (optionalMembers what member).run other = .ok (members.map f, other₁) ∧
      trailingComment.run other₁ = .ok (trailing, other₂) ∧ s.Handover rest₂ other₂ := by
  have hnext : feed.next? = some s.stop := by rw [Feed.next?, hover.tokens, List.head?_cons]
  rw [optionalMembers_run_of_not_nextIs _ _ (by simp [Feed.nextIs, hnext, s.kind_stop])] at h₁
  obtain ⟨rfl, rfl⟩ := Prod.mk.inj (Except.ok.inj h₁)
  rw [trailingComment_run_of_next? hnext (by simp [s.kind_stop])
    (by simp [s.kind_stop, TokenKind.comment?])] at h₂
  obtain ⟨rfl, rfl⟩ := Prod.mk.inj (Except.ok.inj h₂)
  obtain ⟨token, tokens, hothers, hopens, hcomment⟩ := hs.exists_others
  obtain ⟨lastEnd, rfl⟩ := hover.exists_other
  have hother : Feed.next? ⟨s.move.file s.file, s.others, lastEnd, s.comments⟩ = some token := by
    rw [Feed.next?, hothers, List.head?_cons]
  refine ⟨_, _, optionalMembers_run_of_not_nextIs _ _ ?_,
    trailingComment_run_of_next? hother (ne_of_opens hopens rfl) hcomment, .past hover⟩
  have hnot : token.kind ≠ .punctuator .braceOpen := ne_of_opens hopens rfl
  simp [Feed.nextIs, hother, hnot]

/-- Where comments have been carried over there are no members, and a trailing comment is not all
that is left. -/
theorem Loose.exists_members_trailingComment {carried : List String} (hs : s.Whole)
    (hloose : s.Loose feed) (hat : s.At carried feed other)
    (h₁ : (optionalMembers what member).run feed = .ok (members, rest₁))
    (h₂ : trailingComment.run rest₁ = .ok (trailing, rest₂)) :
    ∃ other₁ other₂, (optionalMembers what member).run other = .ok (members.map f, other₁) ∧
      trailingComment.run other₁ = .ok (trailing, other₂) ∧ s.Handover rest₂ other₂ := by
  have hother : other.nextIs (.punctuator .braceOpen) = _ := hat.nextIs_eq rfl
  rw [hloose.not_nextIs] at hother
  rw [optionalMembers_run_of_not_nextIs _ _ hloose.not_nextIs] at h₁
  obtain ⟨rfl, rfl⟩ := Prod.mk.inj (Except.ok.inj h₁)
  obtain ⟨other₂, hother₂, hat₂⟩ := follows_trailingComment.exists hat h₂
  refine ⟨other, other₂, optionalMembers_run_of_not_nextIs _ _ hother, hother₂,
    .inside hat₂ (.inr ?_)⟩
  rcases hloose.exists_token with hend | hmore
  · exact .inl hend
  · refine (Decidable.em (s.next.kind = .endOfText)).imp_right fun hend => ?_
    exact ne_of_trailingComment hs hend hat hmore h₂

/-- Members and a trailing comment are read alike, wherever the comments of the header lead. -/
theorem exists_members_trailingComment (hs : s.Whole)
    (h : ∀ texts name, s.Follows [] (member texts name)
      (member texts (Prod.map id s.move.span name)) f)
    (hstands : s.Over feed other ∨
      ∃ carried, s.At carried feed other ∧ (carried = [] ∨ s.Loose feed))
    (h₁ : (optionalMembers what member).run feed = .ok (members, rest₁))
    (h₂ : trailingComment.run rest₁ = .ok (trailing, rest₂)) :
    ∃ other₁ other₂, (optionalMembers what member).run other = .ok (members.map f, other₁) ∧
      trailingComment.run other₁ = .ok (trailing, other₂) ∧ s.Handover rest₂ other₂ := by
  rcases hstands with hover | ⟨carried, hat, rfl | hloose⟩
  · exact hover.exists_members_trailingComment hs h₁ h₂
  · obtain ⟨other₁, hother₁, hat₁⟩ := (follows_optionalMembers h).exists hat h₁
    obtain ⟨other₂, hother₂, hat₂⟩ := follows_trailingComment.exists hat₁ h₂
    exact ⟨other₁, other₂, hother₁, hother₂, .inside hat₂ (.inl rfl)⟩
  · exact hloose.exists_members_trailingComment hs hat h₁ h₂

end

/-- The end of a definition that may have a body. -/
def bodyTail {α β : Type} (members : Parser β) (finish : List String → β → List String → α) :
    Parser α := do
  let inner ← headerComments
  let members ← members
  let trailing ← trailingComment
  return finish inner members trailing

theorem handsOver_bodyTail {α β : Type} (hs : s.Whole) {what : String}
    {member : List String → String × Span → Parser β} {f : β → β} {g : α → α}
    (h : ∀ texts name, s.Follows [] (member texts name)
      (member texts (Prod.map id s.move.span name)) f)
    {finish finish' : List String → List β → List String → α}
    (hfinish : ∀ inner members trailing,
      finish' inner (members.map f) trailing = g (finish inner members trailing)) :
    s.HandsOver (bodyTail (optionalMembers what member) finish)
      (bodyTail (optionalMembers what member) finish') g := by
  intro feed other hfeed a rest hrun
  simp only [bodyTail, bind_run] at hrun ⊢
  split at hrun
  · next inner rest₁ h₁ =>
    split at hrun
    · next members rest₂ h₂ =>
      split at hrun
      · next trailing rest₃ h₃ =>
        obtain ⟨rfl, rfl⟩ := Prod.mk.inj (Except.ok.inj hrun)
        obtain ⟨other₁, hother₁, hstands⟩ := exists_headerComments hs hfeed h₁
        obtain ⟨other₂, other₃, hother₂, hother₃, hover⟩ :=
          exists_members_trailingComment hs h hstands h₂ h₃
        refine ⟨other₃, ?_, hover⟩
        simp only [hother₁, hother₂, hother₃, ← hfinish]
        rfl
      · cases hrun
    · cases hrun
  · cases hrun

/-! ## Definitions -/

theorem handsOver_enumTail (hs : s.Whole) (texts : List String) :
    s.HandsOver (enumTail texts) (enumTail texts) (relocate s.move) :=
  Follows.bind_handsOver (follows_expect (moves_name _ _)) fun _ =>
    follows_directives.bind_handsOver fun _ =>
      handsOver_bodyTail hs follows_enumValueTail fun _ _ _ => by simp; rfl

theorem handsOver_fieldsDefinitionTail (hs : s.Whole) (what : String) (texts : List String) :
    s.HandsOver (fieldsDefinitionTail what texts) (fieldsDefinitionTail what texts)
      (relocate s.move) :=
  Follows.bind_handsOver (follows_expect (moves_name _ _)) fun _ =>
    follows_directives.bind_handsOver fun _ =>
      handsOver_bodyTail hs follows_fieldTail fun _ _ _ => rfl

theorem handsOver_typeTail (hs : s.Whole) (isExtension : Bool) (texts : List String) :
    s.HandsOver (typeTail isExtension texts) (typeTail isExtension texts) (relocate s.move) :=
  Follows.bind_handsOver (follows_expect (moves_name _ _)) fun _ =>
    follows_optionalInterfaces.bind_handsOver fun _ =>
      follows_directives.bind_handsOver fun _ =>
        handsOver_bodyTail hs follows_fieldTail fun _ _ _ => rfl

theorem handsOver_definitionTail (hs : s.Whole) (d : Document) (texts : List String)
    (word : DefinitionWord × Span) :
    s.HandsOver (definitionTail d texts word)
      (definitionTail (relocate s.move d) texts (Prod.map id s.move.span word))
      (relocate s.move) := by
  obtain ⟨word, span⟩ := word
  cases word with
  | schema =>
    refine (follows_schemaBlockTail texts span).handsOver.map fun _ => ?_
    simp [relocate]
  | directive =>
    refine (follows_directiveDefinitionTail texts).handsOver.map fun _ => ?_
    simp [relocate]
  | scalar =>
    refine (follows_scalarTail texts).handsOver.map fun _ => ?_
    simp [relocate]
  | enum =>
    refine (handsOver_enumTail hs texts).map fun _ => ?_
    simp [relocate]
  | interface =>
    refine (handsOver_fieldsDefinitionTail hs _ texts).map fun _ => ?_
    simp [relocate]
  | union =>
    refine (follows_unionTail texts).handsOver.map fun _ => ?_
    simp [relocate]
  | input =>
    refine (handsOver_fieldsDefinitionTail hs _ texts).map fun _ => ?_
    simp [relocate]
  | type =>
    refine (handsOver_typeTail hs false texts).map fun _ => ?_
    simp [relocate]
  | extend =>
    refine Follows.bind_handsOver (follows_expect (moves_keyword _ _)) fun _ => ?_
    refine (handsOver_typeTail hs true texts).map fun _ => ?_
    simp [relocate]

end Seam

end SchemaMerge
