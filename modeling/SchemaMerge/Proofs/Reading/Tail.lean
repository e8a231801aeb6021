import SchemaMerge.Proofs.Reading.Takes

/-!
# The end of a definition

Behind its last token a definition or a member takes more: its `Tail`. A comment that trails it is
kept. A definition that ends with its header, for want of a body, takes all comments behind that;
one on its last line is its own, and the others it hands to the next definition. `Completes`
says of a parser what it takes up to the last token of a node, and behind that.

A comment on the line on which the definition ends is kept in either case, with commas in front of
it or without (`Tail.KeepsTrailing`): the lines of the tokens of a text do not decrease, so the
commas are on that line too.
-/

namespace SchemaMerge

/-! ## Lines of tokens -/

/-- No token starts on a line before the one on which the token before it ends. -/
structure LinesInOrder (tokens : List Token) : Prop where
  spans : ∀ token ∈ tokens, token.span.start.line ≤ token.span.stop.line
  pairwise : tokens.Pairwise fun token next => token.span.stop.line ≤ next.span.start.line

theorem linesInOrder_tokensFrom (file : String) (tracker : Tracker) (cs : List Char) :
    LinesInOrder (tokensFrom file tracker cs) ∧
      ∀ token ∈ tokensFrom file tracker cs, tracker.position.line ≤ token.span.start.line := by
  fun_induction tokensFrom file tracker cs with
  | case1 tracker cs found start stop span token hnil =>
    have hstart : tracker.position.line ≤ start.position.line := tracker.line_le_advance _
    have hstop : start.position.line ≤ stop.position.line := start.line_le_advance _
    exact ⟨⟨List.forall_mem_singleton.2 hstop, List.pairwise_singleton _ _⟩,
      List.forall_mem_singleton.2 hstart⟩
  | case2 tracker cs found start stop span token hne ih =>
    have hstart : tracker.position.line ≤ start.position.line := tracker.line_le_advance _
    have hstop : start.position.line ≤ stop.position.line := start.line_le_advance _
    obtain ⟨⟨hspans, hpairwise⟩, hbehind⟩ := ih
    refine ⟨⟨List.forall_mem_cons.2 ⟨hstop, hspans⟩, List.pairwise_cons.2 ⟨hbehind, hpairwise⟩⟩,
      List.forall_mem_cons.2 ⟨hstart, fun token ht => ?_⟩⟩
    exact Nat.le_trans (Nat.le_trans hstart hstop) (hbehind token ht)

theorem linesInOrder_ofText (file text : String) : LinesInOrder (Token.ofText file text) :=
  (linesInOrder_tokensFrom file .start text.toList).1

/-- Commas between two tokens on one line end on that line. -/
theorem LinesInOrder.line_eq_of_commas {tokens done commas others : List Token}
    {last comment : Token} (h : LinesInOrder tokens)
    (htokens : tokens = done ++ commas ++ comment :: others) (hlast : last ∈ done.getLast?)
    (hline : comment.span.start.line = last.span.stop.line) :
    ∃ before ∈ (done ++ commas).getLast?, before.span.stop.line = comment.span.start.line := by
  subst htokens
  rw [List.getLast?_append]
  cases hend : commas.getLast? with
  | none => exact ⟨last, hlast, hline.symm⟩
  | some comma =>
    refine ⟨comma, rfl, ?_⟩
    have hmem := List.mem_of_getLast? hend
    have hpairwise := List.pairwise_append.1 h.pairwise
    have hbefore : last.span.stop.line ≤ comma.span.start.line :=
      (List.pairwise_append.1 hpairwise.1).2.2 last (List.mem_of_getLast? hlast) comma hmem
    have hbehind : comma.span.stop.line ≤ comment.span.start.line :=
      hpairwise.2.2 comma (List.mem_append_right _ hmem) comment List.mem_cons_self
    have hcomma := h.spans comma (by simp [hmem])
    omega

/-! ## Tails -/

/-- The tokens behind the last one of a definition or member that are taken with it. -/
structure Tail where
  /-- The comment behind a header that stays with it. -/
  own : List Token
  /-- The comments behind a header that describe what follows. -/
  handed : List Token
  commas : List Token
  /-- The comment that trails. -/
  trail : List Token

namespace Tail

/-- The tokens in order. -/
def tokens (tail : Tail) : List Token := tail.own ++ tail.handed ++ tail.commas ++ tail.trail

/-- The comments that are kept. -/
def kept (tail : Tail) : List Token := tail.own ++ tail.trail

/-- Nothing is taken. -/
def none : Tail := ⟨[], [], [], []⟩

/-- All is comments, but for the commas. -/
structure Fits (tail : Tail) : Prop where
  own : AllComments tail.own
  handed : AllComments tail.handed
  commas : AllCommas tail.commas
  trail : AllComments tail.trail

/-- A comment behind the last token of all, with nothing or commas between them, is kept if it
starts on the line on which that token ends. -/
def KeepsTrailing (tail : Tail) (last : Token) (after : List Token) : Prop :=
  ∀ commas comment others, AllCommas commas → tail.tokens ++ after = commas ++ comment :: others →
    comment.kind.comment?.isSome → comment.span.start.line = last.span.stop.line →
      commas = [] ∧ tail.own = [comment] ∨
        tail.own = [] ∧ tail.handed = [] ∧ tail.commas = commas ∧ tail.trail = [comment]

theorem fits_none : Fits none where
  own := List.forall_mem_nil _
  handed := List.forall_mem_nil _
  commas := List.forall_mem_nil _
  trail := List.forall_mem_nil _

end Tail

theorem ne_comma_of_comment {kind : TokenKind} (h : kind.comment?.isSome) :
    kind ≠ .punctuator .comma := by
  rintro rfl
  cases h

/-- Where commas end is plain. -/
theorem commas_eq {commas others left right : List Token} (hcommas : AllCommas commas)
    (hothers : AllCommas others) (hleft : ∀ token ∈ left.head?, token.kind ≠ .punctuator .comma)
    (hright : ∀ token ∈ right.head?, token.kind ≠ .punctuator .comma)
    (h : commas ++ left = others ++ right) : commas = others ∧ left = right := by
  have htake {run rest : List Token} (hrun : AllCommas run)
      (hrest : ∀ token ∈ rest.head?, token.kind ≠ .punctuator .comma) :
      (run ++ rest).takeWhile (fun token => token.kind = .punctuator .comma) = run := by
    rw [List.takeWhile_append_of_pos (by simpa [AllCommas] using hrun)]
    cases rest with
    | nil => simp
    | cons token rest => simp [hrest token rfl]
  have hsame := congrArg (List.takeWhile fun token => token.kind = .punctuator .comma) h
  rw [htake hcommas hleft, htake hothers hright] at hsame
  subst hsame
  exact ⟨rfl, List.append_cancel_left h⟩

namespace Feed.Behind

variable {tokens done handed commas : List Token} {feed rest : Feed}

theorem isSome_trailing? (h : feed.Behind tokens done handed) {last comment : Token}
    (hlast : last ∈ done.getLast?) (hnext : feed.next? = some comment)
    (hcomment : comment.kind.comment?.isSome)
    (hline : last.span.stop.line = comment.span.start.line) : feed.trailing?.isSome := by
  obtain ⟨kind, span⟩ := comment
  cases kind with
  | comment text => simp [Feed.trailing?, hnext, h.lastEnd_eq, Option.mem_def.1 hlast, hline]
  | _ => cases hcomment

end Feed.Behind

namespace Parser

variable {α β : Type} {tokens done handed : List Token} {feed rest : Feed}

/-- A trailing comment is taken, with the commas in front of it, whenever there is one. -/
theorem exists_trailingComment_run {texts : List String} (h : feed.Behind tokens done handed)
    (hrun : trailingComment.run feed = .ok (texts, rest)) :
    ∃ commas trail, rest.Behind tokens (done ++ commas ++ trail) handed ∧ AllCommas commas ∧
      AllComments trail ∧ texts = commentsOf trail ∧
      (LinesInOrder tokens → ∀ last ∈ done.getLast?, ∀ others comment behind, AllCommas others →
        feed.tokens = others ++ comment :: behind → comment.kind.comment?.isSome →
          comment.span.start.line = last.span.stop.line → commas = others ∧ trail = [comment]) := by
  rw [trailingComment_eq, bind_run] at hrun
  split at hrun
  · next _ mid hmid =>
    obtain ⟨commas, hbehind, hcommas, hnext⟩ := exists_skipCommas_run h hmid
    rw [bind_run, feed_run] at hrun
    have hsplit {others behind : List Token} {comment : Token} (hothers : AllCommas others)
        (htokens : feed.tokens = others ++ comment :: behind)
        (hcomment : comment.kind.comment?.isSome) :
        commas = others ∧ mid.tokens = comment :: behind := by
      refine commas_eq hcommas hothers hnext ?_ ((h.tokens_eq_append hbehind).symm.trans htokens)
      rintro _ ⟨⟩
      exact ne_comma_of_comment hcomment
    cases htrailing : mid.trailing? with
    | none =>
      simp only [htrailing, pure_run] at hrun
      obtain ⟨rfl, rfl⟩ := Prod.mk.inj (Except.ok.inj hrun)
      refine ⟨commas, [], by rwa [List.append_nil], hcommas, List.forall_mem_nil _, rfl,
        fun hlines last hlast others comment behind hothers htokens hcomment hline => ?_⟩
      obtain ⟨rfl, hmidTokens⟩ := hsplit hothers htokens hcomment
      obtain ⟨before, hbefore, hbeforeLine⟩ := hlines.line_eq_of_commas
        (hmidTokens ▸ hbehind.tokens_eq) hlast hline
      have hsome := hbehind.isSome_trailing? hbefore (by rw [Feed.next?, hmidTokens]; rfl) hcomment
        hbeforeLine
      rw [htrailing] at hsome
      cases hsome
    | some text =>
      simp only [htrailing, bind_run, advance_run, pure_run] at hrun
      obtain ⟨rfl, rfl⟩ := Prod.mk.inj (Except.ok.inj hrun)
      obtain ⟨span, hhead⟩ := Feed.exists_next?_of_trailing? htrailing
      refine ⟨commas, [⟨.comment text, span⟩], hbehind.advance hhead, hcommas,
        List.forall_mem_singleton.2 rfl, rfl,
        fun _ _ _ others comment behind hothers htokens hcomment _ => ?_⟩
      obtain ⟨rfl, hmidTokens⟩ := hsplit hothers htokens hcomment
      rw [Feed.next?, hmidTokens] at hhead
      obtain rfl := Option.some.inj hhead
      exact ⟨rfl, rfl⟩
  · cases hrun

theorem takes_trailingComment {post : List Token → List String → Prop}
    (h : ∀ commas trail, AllCommas commas → AllComments trail →
      post (commas ++ trail) (commentsOf trail)) : Takes tokens done trailingComment post := by
  intro feed texts rest hfeed hrun
  obtain ⟨commas, trail, hrest, hcommas, htrail, rfl, -⟩ := exists_trailingComment_run hfeed hrun
  exact ⟨commas ++ trail, by rwa [← List.append_assoc], h commas trail hcommas htrail⟩

theorem commentsOf_take {comments : List Token} (h : AllComments comments) (n : Nat) :
    commentsOf (comments.take n) = (commentsOf comments).take n := by
  induction comments generalizing n with
  | nil => simp
  | cons comment comments ih =>
    rw [AllComments, List.forall_mem_cons] at h
    obtain ⟨text, htext⟩ := Option.isSome_iff_exists.1 h.1
    cases n with
    | zero => rfl
    | succ n => simpa [commentsOf, htext] using ih h.2 n

theorem commentsOf_drop {comments : List Token} (h : AllComments comments) (n : Nat) :
    commentsOf (comments.drop n) = (commentsOf comments).drop n := by
  have hsplit := congrArg commentsOf (List.take_append_drop n comments)
  rw [commentsOf_append, commentsOf_take h] at hsplit
  exact List.append_cancel_left (hsplit.trans (List.take_append_drop n _).symm)

/-- The comments behind a header belong to it if a body follows. Else it keeps one at most, and
hands over the others. -/
theorem exists_headerComments_run {texts : List String} (h : feed.Behind tokens done [])
    (hrun : headerComments.run feed = .ok (texts, rest)) :
    (∃ inner, rest.Behind tokens (done ++ inner) [] ∧ AllComments inner ∧
        texts = commentsOf inner ∧ rest.nextIs (.punctuator .braceOpen) = true) ∨
      ∃ own handed, rest.Behind tokens (done ++ (own ++ handed)) handed ∧ AllComments own ∧
        AllComments handed ∧ texts = commentsOf own ∧
        rest.nextIs (.punctuator .braceOpen) = false ∧
        own = (own ++ handed).take (Seam.ownComments feed) := by
  obtain ⟨comments, mid, hsplit⟩ :
      ∃ comments mid, splitRun TokenKind.comment? feed feed.tokens = (comments, mid) := ⟨_, _, rfl⟩
  obtain ⟨used, hbehind, rfl, hused, -⟩ := h.exists_splitRun hsplit
  rw [Seam.headerComments_run hsplit] at hrun
  cases hbrace : mid.nextIs (.punctuator .braceOpen) with
  | true =>
    rw [if_pos (by simp [hbrace])] at hrun
    obtain ⟨rfl, rfl⟩ := Prod.mk.inj (Except.ok.inj hrun)
    exact .inl ⟨used, hbehind, hused, rfl, hbrace⟩
  | false =>
    right
    by_cases hempty : used = []
    · subst hempty
      rw [if_pos (by simp)] at hrun
      obtain ⟨rfl, rfl⟩ := Prod.mk.inj (Except.ok.inj hrun)
      exact ⟨[], [], hbehind, List.forall_mem_nil _, List.forall_mem_nil _, rfl, hbrace,
        by simp⟩
    · have hne : (used.filterMap fun token => token.kind.comment?).isEmpty = false := by
        obtain ⟨comment, others, rfl⟩ := List.exists_cons_of_ne_nil hempty
        obtain ⟨text, htext⟩ := Option.isSome_iff_exists.1 (hused comment List.mem_cons_self)
        simp [htext]
      rw [if_neg (by rw [hne, hbrace]; decide)] at hrun
      obtain ⟨rfl, rfl⟩ := Prod.mk.inj (Except.ok.inj hrun)
      refine ⟨used.take (Seam.ownComments feed), used.drop (Seam.ownComments feed),
        ⟨?_, ?_, (commentsOf_drop hused _).symm⟩,
        fun token ht => hused token (List.mem_of_mem_take ht),
        fun token ht => hused token (List.mem_of_mem_drop ht), (commentsOf_take hused _).symm,
        hbrace, ?_⟩
      · rw [List.take_append_drop]
        exact hbehind.tokens_eq
      · rw [List.take_append_drop]
        exact hbehind.lastEnd_eq
      · rw [List.take_append_drop]

/-! ## Parsers that end with a tail -/

/-- What the parser takes behind the tokens of `done` is the tokens of a node and its tail. Of
these, and the value that is given for them, `post` holds; and a trailing comment is kept. -/
def Completes (tokens done : List Token) (p : Parser α) (post : List Token → Tail → α → Prop) :
    Prop :=
  ∀ feed a rest, feed.Behind tokens done [] → p.run feed = .ok (a, rest) →
    ∃ used tail, rest.Behind tokens (done ++ used ++ tail.tokens) tail.handed ∧ tail.Fits ∧
      (LinesInOrder tokens → ∀ last ∈ (done ++ used).getLast?,
        tail.KeepsTrailing last rest.tokens) ∧ post used tail a

theorem Takes.bind_completes {p : Parser α} {next : α → Parser β} {first : List Token → α → Prop}
    {post : List Token → Tail → β → Prop} (hp : Takes tokens done p first)
    (hnext : ∀ used a, first used a →
      Completes tokens (done ++ used) (next a) fun more tail b => post (used ++ more) tail b) :
    Completes tokens done (p >>= next) post := by
  intro feed b rest hfeed hrun
  rw [bind_run] at hrun
  split at hrun
  · next a mid hmid =>
    obtain ⟨used, hbehind, ha⟩ := hp feed a mid hfeed hmid
    obtain ⟨more, tail, hrest, hfits, hkeeps, hb⟩ :=
      hnext used a ha mid b rest hbehind hrun
    rw [List.append_assoc done] at hrest hkeeps
    exact ⟨used ++ more, tail, hrest, hfits, hkeeps, hb⟩
  · cases hrun

theorem Completes.map {p : Parser α} {finish : α → β} {post : List Token → Tail → α → Prop}
    {post' : List Token → Tail → β → Prop} (hp : Completes tokens done p post)
    (h : ∀ used tail a, post used tail a → post' used tail (finish a)) :
    Completes tokens done (p >>= fun a => pure (finish a)) post' := by
  intro feed b rest hfeed hrun
  rw [bind_run] at hrun
  split at hrun
  · next a mid hmid =>
    obtain ⟨rfl, rfl⟩ := Prod.mk.inj (Except.ok.inj hrun)
    obtain ⟨used, tail, hrest, hfits, hkeeps, ha⟩ := hp feed a mid hfeed hmid
    exact ⟨used, tail, hrest, hfits, hkeeps, h used tail a ha⟩
  · cases hrun

/-- A node that is complete ends with the comment that trails it. -/
theorem completes_trailingComment {finish : List String → α} {post : List Token → Tail → α → Prop}
    (h : ∀ tail, tail.Fits → tail.own = [] → tail.handed = [] →
      post [] tail (finish (commentsOf tail.trail))) :
    Completes tokens done (trailingComment >>= fun texts => pure (finish texts)) post := by
  intro feed a rest hfeed hrun
  rw [bind_run] at hrun
  split at hrun
  · next texts mid hmid =>
    obtain ⟨rfl, rfl⟩ := Prod.mk.inj (Except.ok.inj hrun)
    obtain ⟨commas, trail, hbehind, hcommas, htrail, rfl, hkeeps⟩ :=
      exists_trailingComment_run hfeed hmid
    have hfits : Tail.Fits ⟨[], [], commas, trail⟩ :=
      ⟨List.forall_mem_nil _, List.forall_mem_nil _, hcommas, htrail⟩
    refine ⟨[], ⟨[], [], commas, trail⟩, ?_, hfits, ?_, h _ hfits rfl rfl⟩
    · simpa [Tail.tokens] using hbehind
    · intro hlines last hlast others comment behind hothers hsplit hcomment hline
      rw [List.append_nil] at hlast
      rw [List.append_assoc] at hbehind
      obtain ⟨rfl, rfl⟩ := hkeeps hlines last hlast others comment behind hothers
        ((hfeed.tokens_eq_append hbehind).trans (by simpa [Tail.tokens] using hsplit)) hcomment
        hline
      exact .inr ⟨rfl, rfl, rfl, rfl⟩
  · cases hrun

theorem expect_bind_length_lt {want : Want α} {next : α → Parser β} {b : β}
    (h : (expect want >>= next).run feed = .ok (b, rest)) :
    rest.tokens.length < feed.tokens.length := by
  rw [bind_run] at h
  split at h
  · next a mid hmid => exact Nat.lt_of_le_of_lt ((next a).length_le h) (expect_length_lt hmid)
  · cases h

/-- Between braces there are braces at least. -/
theorem ne_nil_of_optionalMembers_run {what : String}
    {member : List String → String × Span → Parser β} {members : List β} {used : List Token}
    (h : feed.Behind tokens done handed) (hbrace : feed.nextIs (.punctuator .braceOpen) = true)
    (hrun : (optionalMembers what member).run feed = .ok (members, rest))
    (hrest : rest.Behind tokens (done ++ used) handed) : used ≠ [] := by
  rintro rfl
  have hlength : rest.tokens.length < feed.tokens.length := by
    rw [optionalMembers, nextIs, bind_run, bind_run, feed_run] at hrun
    dsimp only [pure_run] at hrun
    rw [if_pos hbrace] at hrun
    exact expect_bind_length_lt hrun
  rw [h.tokens_eq_append hrest, List.nil_append] at hlength
  exact Nat.lt_irrefl _ hlength

/-- A header keeps the comment on its last line: the first of those that follow, or one behind
commas. -/
theorem keepsTrailing_of_header {mid : Feed} {own handed commas trail : List Token} {last : Token}
    (h : feed.Behind tokens done []) (hmid : mid.Behind tokens (done ++ (own ++ handed)) handed)
    (hrest : rest.Behind tokens (done ++ (own ++ handed) ++ commas ++ trail) handed)
    (hown : AllComments own) (hhanded : AllComments handed)
    (htake : own = (own ++ handed).take (Seam.ownComments feed)) (hlast : last ∈ done.getLast?)
    (hkeeps : ∀ last ∈ (done ++ (own ++ handed)).getLast?, ∀ others comment behind,
      AllCommas others → mid.tokens = others ++ comment :: behind → comment.kind.comment?.isSome →
        comment.span.start.line = last.span.stop.line → commas = others ∧ trail = [comment]) :
    Tail.KeepsTrailing ⟨own, handed, commas, trail⟩ last rest.tokens := by
  intro others comment behind hothers hsplit hcomment hline
  have hmidTokens : mid.tokens = commas ++ trail ++ rest.tokens :=
    hmid.tokens_eq_append (by rwa [List.append_assoc _ commas] at hrest)
  have hfeedTokens : feed.tokens = own ++ handed ++ mid.tokens := h.tokens_eq_append hmid
  have hall : own ++ handed ++ mid.tokens = others ++ comment :: behind := by
    rw [← hsplit, hmidTokens]
    simp [Tail.tokens]
  cases hheader : own ++ handed with
  | nil =>
    obtain ⟨rfl, rfl⟩ := List.append_eq_nil_iff.1 hheader
    obtain ⟨rfl, rfl⟩ := hkeeps last (by simpa using hlast) others comment behind hothers
      (by simpa using hall) hcomment hline
    exact .inr ⟨rfl, rfl, rfl, rfl⟩
  | cons first run =>
    -- Comments come first, so no commas stand in front of this one.
    have hfirst : first.kind.comment?.isSome :=
      List.forall_mem_append.2 ⟨hown, hhanded⟩ first (by simp [hheader])
    cases others with
    | cons comma others =>
      rw [hheader] at hall
      obtain ⟨rfl, -⟩ := List.cons.inj hall
      exact absurd (hothers first List.mem_cons_self) (ne_comma_of_comment hfirst)
    | nil =>
      rw [hheader] at hall htake
      obtain ⟨rfl, -⟩ := List.cons.inj hall
      have hnext : feed.next? = some first := by rw [Feed.next?, hfeedTokens, hheader]; rfl
      have htrails := h.isSome_trailing? hlast hnext hcomment hline.symm
      rw [Seam.ownComments, if_pos htrails] at htake
      exact .inl ⟨rfl, htake⟩

/-- The end of a definition that may have a body: with a body it ends behind that, and without one
it ends with its header. -/
theorem completes_bodyTail {what : String} {member : List String → String × Span → Parser β}
    {finish : List String → List β → List String → α}
    {first : List Token → List Token → List β → Prop}
    {post : List Token → Tail → α → Prop}
    (hmembers : ∀ inner, Takes tokens (done ++ inner) (optionalMembers what member) (first inner))
    (hbody : ∀ inner body members tail, AllComments inner → first inner body members → body ≠ [] →
      tail.Fits → tail.own = [] → tail.handed = [] →
        post (inner ++ body) tail (finish (commentsOf inner) members (commentsOf tail.trail)))
    (hnone : ∀ tail, tail.Fits →
      post [] tail (finish (commentsOf tail.own) [] (commentsOf tail.trail))) :
    Completes tokens done (Seam.bodyTail (optionalMembers what member) finish) post := by
  intro feed a rest hfeed hrun
  rw [Seam.bodyTail, bind_run] at hrun
  split at hrun
  · next texts rest₁ h₁ =>
    rw [bind_run] at hrun
    rcases exists_headerComments_run hfeed h₁ with
      ⟨inner, hbehind₁, hinner, rfl, hbrace⟩ |
      ⟨own, handed, hbehind₁, hown, hhanded, rfl, hbrace, htake⟩
    · split at hrun
      · next members rest₂ h₂ =>
        obtain ⟨body, hbehind₂, hfirst⟩ := hmembers inner _ _ _ hbehind₁ h₂
        have hne := ne_nil_of_optionalMembers_run hbehind₁ hbrace h₂ hbehind₂
        have htail : Completes tokens (done ++ inner ++ body)
            (trailingComment >>= fun texts => pure (finish (commentsOf inner) members texts))
            fun more tail a => post (inner ++ body ++ more) tail a :=
          completes_trailingComment fun tail hfits hown hhanded => by
            rw [List.append_nil]
            exact hbody inner body members tail hinner hfirst hne hfits hown hhanded
        obtain ⟨more, tail, hrest, hfits, hkeeps, ha⟩ := htail _ _ _ hbehind₂ hrun
        refine ⟨inner ++ body ++ more, tail, ?_, hfits, ?_, ha⟩
        · simpa only [List.append_assoc] using hrest
        · simpa only [List.append_assoc] using hkeeps
      · cases hrun
    · rw [Seam.optionalMembers_run_of_not_nextIs what member hbrace] at hrun
      simp only [bind_run] at hrun
      split at hrun
      · next trailing rest₃ h₃ =>
        obtain ⟨rfl, rfl⟩ := Prod.mk.inj (Except.ok.inj hrun)
        obtain ⟨commas, trail, hrest, hcommas, htrail, rfl, hkeeps⟩ :=
          exists_trailingComment_run hbehind₁ h₃
        have hfits : Tail.Fits ⟨own, handed, commas, trail⟩ := ⟨hown, hhanded, hcommas, htrail⟩
        refine ⟨[], ⟨own, handed, commas, trail⟩, ?_, hfits, ?_, hnone _ hfits⟩
        · simpa [Tail.tokens] using hrest
        · rw [List.append_nil]
          exact fun hlines last hlast => keepsTrailing_of_header hfeed hbehind₁ hrest hown hhanded
            htake hlast (hkeeps hlines)
      · cases hrun
  · cases hrun

/-! ## Documents -/

section

variable {document next : Document} {turned : Document ⊕ (Document × List String)}

/-- Documentation stands in front of a definition, or of the end. -/
theorem exists_lead_of_documentTurn_run (h : feed.Behind tokens done handed)
    (hrun : (documentTurn document).run feed = .ok (turned, rest)) :
    ∃ lead, rest.Behind tokens (done ++ lead) [] ∧ AllDescriptions lead ∧
      (turned = .inr (document, commentsOf handed ++ descriptionsOf lead) ∨
        turned = .inl document ∧ ∃ last ∈ rest.next?, last.kind = .endOfText) := by
  rw [documentTurn, bind_run] at hrun
  split at hrun
  · next texts mid hmid =>
    obtain ⟨lead, hbehind, hlead, rfl⟩ := exists_lead_of_descriptions_run h hmid
    refine ⟨lead, ?_⟩
    simp only [nextIs, bind_run, feed_run, pure_run] at hrun
    cases hend : mid.nextIs .endOfText with
    | false =>
      simp only [hend, Bool.false_eq_true, if_false, pure_run] at hrun
      obtain ⟨rfl, rfl⟩ := Prod.mk.inj (Except.ok.inj hrun)
      exact ⟨hbehind, hlead, .inl rfl⟩
    | true =>
      simp only [hend, if_true, pure_run] at hrun
      obtain ⟨rfl, rfl⟩ := Prod.mk.inj (Except.ok.inj hrun)
      exact ⟨hbehind, hlead, .inr ⟨rfl, Feed.exists_next?_of_nextIs hend⟩⟩
  · cases hrun

end

end Parser

end SchemaMerge
