import SchemaMerge.Proofs.Reading.Takes

/-!
# Tokens without commas

Two feeds are `Thin` if the one stands in a list of tokens, and the other in the list without its
commas, behind the same tokens but for the commas. Both then see the same next token, but that the
second feed looks past the commas in front of the first. Where every comma ends on the line of the
token before it, the same comments trail what was read (`Thin.trailing?_eq`).
-/

namespace SchemaMerge

open SchemaMerge.Parser

/-! ## Commas among tokens -/

/-- The tokens that are no commas. -/
def withoutCommas (tokens : List Token) : List Token :=
  tokens.filter fun token => token.kind ≠ .punctuator .comma

section

variable {tokens more : List Token} {token : Token}

theorem withoutCommas_append : withoutCommas (tokens ++ more) =
    withoutCommas tokens ++ withoutCommas more := List.filter_append ..

theorem withoutCommas_concat (h : token.kind ≠ .punctuator .comma) :
    withoutCommas (tokens ++ [token]) = withoutCommas tokens ++ [token] := by
  simp [withoutCommas, h]

theorem withoutCommas_of_forall_ne (h : ∀ token ∈ tokens, token.kind ≠ .punctuator .comma) :
    withoutCommas tokens = tokens := List.filter_eq_self.2 fun token ht => by simp [h token ht]

theorem AllCommas.withoutCommas_eq (h : AllCommas tokens) : withoutCommas tokens = [] :=
  List.filter_eq_nil_iff.2 fun token ht => by simp [h token ht]

theorem head?_withoutCommas : (withoutCommas tokens).head? =
    tokens.find? fun token => token.kind ≠ .punctuator .comma := List.head?_filter ..

end

/-- Each comma follows a token that is no comment, and ends on the line on which that one ends. -/
structure CommasFollow (tokens : List Token) : Prop where
  head : ∀ token ∈ tokens.head?, token.kind ≠ .punctuator .comma
  follow : tokens.IsChain fun before comma => comma.kind = .punctuator .comma →
    before.kind.comment? = none ∧ comma.span.stop.line = before.span.stop.line

namespace CommasFollow

variable {tokens done left : List Token}

/-- A comma stands behind a token other than a comment, on its line. -/
theorem of_getLast? (h : CommasFollow tokens) (htokens : tokens = done ++ left)
    {before comma : Token} (hbefore : before ∈ done.getLast?) (hcomma : comma ∈ left.head?)
    (hkind : comma.kind = .punctuator .comma) :
    before.kind.comment? = none ∧ comma.span.stop.line = before.span.stop.line := by
  have hchain := h.follow
  rw [htokens, List.isChain_append] at hchain
  exact hchain.2.2 before hbefore comma hcomma hkind

/-- The last token that is no comma ends on the same line as the last token. -/
theorem line_getLast? (h : CommasFollow tokens) (htokens : tokens = done ++ left) :
    (withoutCommas done).getLast?.map (fun token => token.span.stop.line) =
      done.getLast?.map fun token => token.span.stop.line := by
  induction done using List.reverseRecOn generalizing left with
  | nil => rfl
  | append_singleton done token ih =>
    rw [List.append_assoc] at htokens
    by_cases hkind : token.kind = .punctuator .comma
    · have hlast := ih htokens
      have hcommas : AllCommas [token] := List.forall_mem_singleton.2 hkind
      rw [withoutCommas_append, hcommas.withoutCommas_eq, List.append_nil, hlast]
      cases hbefore : done.getLast? with
      | none =>
        obtain rfl := List.getLast?_eq_none_iff.1 hbefore
        exact absurd hkind (h.head token (by rw [htokens]; rfl))
      | some before =>
        have hline := (h.of_getLast? htokens hbefore rfl hkind).2
        rw [List.getLast?_concat, Option.map_some, Option.map_some, hline]
    · rw [withoutCommas_concat hkind, List.getLast?_concat, List.getLast?_concat]

end CommasFollow

/-! ## What comes next -/

namespace Feed

variable {feed : Feed} {kinds others : TokenKind → Prop} {token : Token}

/-- The next token that is no comma. -/
def ahead? (feed : Feed) : Option Token :=
  feed.tokens.find? fun token => token.kind ≠ .punctuator .comma

/-- The next token is of one of the kinds. -/
def Faces (kinds : TokenKind → Prop) (feed : Feed) : Prop := ∃ token ∈ feed.next?, kinds token.kind

/-- The next token that is no comma is of one of the kinds. -/
def Opens (kinds : TokenKind → Prop) (feed : Feed) : Prop :=
  ∃ token ∈ feed.ahead?, kinds token.kind

/-- The next token is a comma. -/
def OnComma (feed : Feed) : Prop := feed.Faces (· = .punctuator .comma)

/-- If commas come next, a token of one of the kinds stands behind them. -/
def Clear (kinds : TokenKind → Prop) (feed : Feed) : Prop := feed.OnComma → feed.Opens kinds

/-- The next token is no comma. -/
abbrev OffComma : Feed → Prop := Clear fun _ => False

theorem ahead?_of_next? (h : feed.next? = some token) (hkind : token.kind ≠ .punctuator .comma) :
    feed.ahead? = some token := by
  obtain ⟨tokens, htokens⟩ := List.head?_eq_some_iff.1 h
  rw [ahead?, htokens, List.find?_cons_of_pos (by simpa using hkind)]

theorem not_onComma_of_next? (h : feed.next? = some token)
    (hkind : token.kind ≠ .punctuator .comma) : ¬feed.OnComma := by
  rintro ⟨comma, hcomma, hcommaKind⟩
  obtain rfl := Option.some.inj (h.symm.trans hcomma)
  exact hkind hcommaKind

/-- Off commas, the next token is the one ahead. -/
theorem ahead?_of_not_onComma (h : ¬feed.OnComma) : feed.ahead? = feed.next? := by
  cases hnext : feed.next? with
  | none => rw [ahead?, List.head?_eq_none_iff.1 hnext, List.find?_nil]
  | some token => exact ahead?_of_next? hnext fun hkind => h ⟨token, hnext, hkind⟩

theorem Faces.mono (h : feed.Faces kinds) (himp : ∀ kind, kinds kind → others kind) :
    feed.Faces others := h.imp fun _ ⟨hnext, hkind⟩ => ⟨hnext, himp _ hkind⟩

theorem Opens.mono (h : feed.Opens kinds) (himp : ∀ kind, kinds kind → others kind) :
    feed.Opens others := h.imp fun _ ⟨hnext, hkind⟩ => ⟨hnext, himp _ hkind⟩

theorem Clear.mono (h : feed.Clear kinds) (himp : ∀ kind, kinds kind → others kind) :
    feed.Clear others := fun hon => (h hon).mono himp

theorem Opens.clear (h : feed.Opens kinds) : feed.Clear kinds := fun _ => h

/-- A token of these kinds is no comma. -/
theorem Faces.not_onComma (h : feed.Faces kinds) (hcomma : ¬kinds (.punctuator .comma)) :
    ¬feed.OnComma := by
  obtain ⟨token, hnext, hkind⟩ := h
  exact not_onComma_of_next? hnext fun heq => hcomma (heq ▸ hkind)

theorem Faces.opens (h : feed.Faces kinds) (hcomma : ¬kinds (.punctuator .comma)) :
    feed.Opens kinds := by
  rw [Opens, ahead?_of_not_onComma (h.not_onComma hcomma)]
  exact h

theorem Faces.clear (h : feed.Faces kinds) (hcomma : ¬kinds (.punctuator .comma)) :
    feed.Clear others := fun hon => absurd hon (h.not_onComma hcomma)

theorem faces_of_nextIs {kind : TokenKind} (h : feed.nextIs kind = true) :
    feed.Faces (· = kind) := Feed.exists_next?_of_nextIs h

theorem Faces.nextIs_eq_false (h : feed.Faces kinds) {kind : TokenKind} (hkind : ¬kinds kind) :
    feed.nextIs kind = false := by
  obtain ⟨token, hnext, htoken⟩ := h
  refine Bool.eq_false_iff.2 fun htrue => ?_
  obtain ⟨other, hother, rfl⟩ := Feed.exists_next?_of_nextIs htrue
  obtain rfl := Option.some.inj (hother.symm.trans hnext)
  exact hkind htoken

end Feed

/-! ## Runs of tokens -/

theorem Parser.takeRun_run_of_forall_next? {α : Type} {r : TokenKind → Option α} {feed : Feed}
    (h : ∀ token ∈ feed.next?, r token.kind = none) : (takeRun r).run feed = .ok ([], feed) := by
  cases hnext : feed.next? with
  | some token => exact takeRun_run_of_next? hnext (h token hnext)
  | none =>
    obtain ⟨file, tokens, lastEnd, carried⟩ := feed
    obtain rfl : tokens = [] := List.head?_eq_none_iff.1 hnext
    rfl

/-- Behind the commas stands the token that was ahead. -/
theorem Parser.next?_of_skipCommas_run {feed rest : Feed}
    (hrun : skipCommas.run feed = .ok ((), rest)) : rest.next? = feed.ahead? := by
  simp only [skipCommas, bind_run, takeRun_run, pure_run, Seam.splitRun_eq] at hrun
  cases hrun
  rw [Feed.next?, Feed.ahead?, List.find?_eq_head?_dropWhile_not]
  refine congrArg (fun p => (feed.tokens.dropWhile p).head?) (funext fun token => ?_)
  by_cases hkind : token.kind = .punctuator .comma <;> simp [Seam.inRun, hkind]

theorem Parser.not_onComma_of_skipCommas_run {feed rest : Feed}
    (hrun : skipCommas.run feed = .ok ((), rest)) : ¬rest.OnComma := by
  rintro ⟨token, hnext, hkind⟩
  rw [next?_of_skipCommas_run hrun] at hnext
  simpa [hkind] using List.find?_some hnext

/-- A run takes the tokens that belong to it and stops at the next one. -/
theorem Feed.Behind.exists_rest {tokens done handed used left : List Token} {feed : Feed}
    (h : feed.Behind tokens done handed) {α : Type} {r : TokenKind → Option α}
    (htokens : feed.tokens = used ++ left) (hused : ∀ token ∈ used, (r token.kind).isSome)
    (hleft : ∀ token ∈ left.head?, r token.kind = none) :
    ∃ rest, splitRun r feed feed.tokens =
        (used.filterMap fun token => r token.kind, rest) ∧
      rest.Behind tokens (done ++ used) handed ∧ rest.tokens = left := by
  obtain ⟨htake, hdrop⟩ := @takeWhile_append_of_stops _ (Seam.inRun r) used left
    fun _ token ht => by rw [Seam.inRun, hleft token ht]; rfl
  have hall : used.takeWhile (Seam.inRun r) = used := List.takeWhile_eq_self_iff.2 hused
  have hnil : used.dropWhile (Seam.inRun r) = [] := List.dropWhile_eq_nil_iff.2 hused
  rw [htokens, Seam.splitRun_eq, htake, hdrop, hall, hnil]
  refine ⟨_, rfl, ⟨?_, ?_, h.carried_eq⟩, rfl⟩
  · rw [h.tokens_eq, htokens, List.append_assoc, List.nil_append]
  · rw [List.getLast?_append, Option.map_or, ← h.lastEnd_eq]

/-! ## Feeds in thinned tokens -/

/-- The feeds stand at the same place of a list of tokens and of the list without its commas. -/
structure Thin (tokens : List Token) (feed thin : Feed) : Prop where
  commas : CommasFollow tokens
  exists_done : ∃ done, feed.Behind tokens done [] ∧
    thin.Behind (withoutCommas tokens) (withoutCommas done) []

namespace Thin

variable {tokens : List Token} {feed thin rest : Feed} {token : Token}

theorem tokens_eq (h : Thin tokens feed thin) : thin.tokens = withoutCommas feed.tokens := by
  obtain ⟨done, hfeed, hthin⟩ := h.exists_done
  have htokens := hthin.tokens_eq
  rw [hfeed.tokens_eq, withoutCommas_append] at htokens
  exact (List.append_cancel_left htokens).symm

theorem carried_eq (h : Thin tokens feed thin) : feed.carried = [] ∧ thin.carried = [] := by
  obtain ⟨done, hfeed, hthin⟩ := h.exists_done
  exact ⟨hfeed.carried_eq, hthin.carried_eq⟩

/-- Among the tokens without commas, the one ahead comes next. -/
theorem next?_eq (h : Thin tokens feed thin) : thin.next? = feed.ahead? := by
  rw [Feed.next?, h.tokens_eq, head?_withoutCommas, Feed.ahead?]

theorem next?_eq_of_not_onComma (h : Thin tokens feed thin) (hoff : ¬feed.OnComma) :
    thin.next? = feed.next? := h.next?_eq.trans (Feed.ahead?_of_not_onComma hoff)

theorem faces (h : Thin tokens feed thin) {kinds : TokenKind → Prop} (hfaces : feed.Faces kinds)
    (hcomma : ¬kinds (.punctuator .comma)) : thin.Faces kinds := by
  rw [Feed.Faces, h.next?_eq_of_not_onComma (hfaces.not_onComma hcomma)]
  exact hfaces

/-- A token other than a comma is taken from both lists. -/
theorem advance (h : Thin tokens feed thin) (hnext : feed.next? = some token)
    (hkind : token.kind ≠ .punctuator .comma) : Thin tokens feed.advance thin.advance := by
  obtain ⟨done, hfeed, hthin⟩ := h.exists_done
  have hthinNext : thin.next? = some token :=
    h.next?_eq.trans (Feed.ahead?_of_next? hnext hkind)
  refine ⟨h.commas, done ++ [token], hfeed.advance hnext, ?_⟩
  rw [withoutCommas_concat hkind]
  exact hthin.advance hthinNext

/-- A token that does not stand behind the commas comes next in neither list. -/
theorem nextIs_eq (h : Thin tokens feed thin) {kind : TokenKind}
    (hkind : kind ≠ .punctuator .comma) (hclear : feed.Clear (· ≠ kind)) :
    thin.nextIs kind = feed.nextIs kind := by
  by_cases hon : feed.OnComma
  · obtain ⟨token, hahead, hne⟩ := hclear hon
    have hnext : thin.next? = some token := h.next?_eq.trans hahead
    rw [Feed.Faces.nextIs_eq_false hon hkind]
    simpa [Feed.nextIs, hnext] using hne
  · rw [Feed.nextIs, h.next?_eq_of_not_onComma hon, Feed.nextIs]

/-- The same comment trails what was read. -/
theorem trailing?_eq (h : Thin tokens feed thin) (hoff : ¬feed.OnComma) :
    thin.trailing? = feed.trailing? := by
  obtain ⟨done, hfeed, hthin⟩ := h.exists_done
  have hline := h.commas.line_getLast? hfeed.tokens_eq
  unfold Feed.trailing?
  rw [h.next?_eq_of_not_onComma hoff, hfeed.lastEnd_eq, hthin.lastEnd_eq]
  cases hlast : done.getLast? with
  | none =>
    rw [hlast, Option.map_none, Option.map_eq_none_iff] at hline
    rw [hline]
  | some last =>
    rw [hlast, Option.map_some, Option.map_eq_some_iff] at hline
    obtain ⟨thinLast, hthinLast, hline⟩ := hline
    rw [hthinLast, Option.map_some, Option.map_some]
    split
    · next text span stop hnext hstop =>
      obtain rfl := Option.some.inj hstop
      simp [hnext, hline]
    · next hnone =>
      split
      · next text span stop hnext hstop => exact absurd rfl (hnone text span _ hnext)
      · rfl

/-- A run that reads no commas takes the same tokens from both lists, unless it goes on behind the
commas that stop it in the one. -/
theorem exists_splitRun (h : Thin tokens feed thin) {α : Type} {r : TokenKind → Option α}
    {found : List α} (hcomma : r (.punctuator .comma) = none)
    (hrun : splitRun r feed feed.tokens = (found, rest))
    (hclear : rest.Clear fun kind => r kind = none) :
    ∃ thinRest, splitRun r thin thin.tokens = (found, thinRest) ∧
      Thin tokens rest thinRest := by
  obtain ⟨done, hfeed, hthin⟩ := h.exists_done
  obtain ⟨used, hrest, rfl, hused, hnext⟩ := hfeed.exists_splitRun hrun
  have hsplit := hfeed.tokens_eq_append hrest
  have hkept : withoutCommas used = used := withoutCommas_of_forall_ne fun token ht hkind => by
    have hread := hused token ht
    rw [hkind, hcomma] at hread
    cases hread
  have hahead : ∀ token ∈ rest.ahead?, r token.kind = none := by
    intro token ht
    by_cases hon : rest.OnComma
    · obtain ⟨other, hother, hnone⟩ := hclear hon
      obtain rfl := Option.some.inj (hother.symm.trans ht)
      exact hnone
    · rw [Feed.ahead?_of_not_onComma hon] at ht
      exact hnext token ht
  have hthinTokens : thin.tokens = used ++ withoutCommas rest.tokens := by
    rw [h.tokens_eq, hsplit, withoutCommas_append, hkept]
  rw [Feed.ahead?, ← head?_withoutCommas] at hahead
  obtain ⟨thinRest, hthinRun, hthinRest, -⟩ := hthin.exists_rest hthinTokens hused hahead
  refine ⟨thinRest, hthinRun, h.commas, done ++ used, hrest, ?_⟩
  rw [withoutCommas_append, hkept]
  exact hthinRest

/-- Commas that are skipped are not there in the other list. -/
theorem exists_skipCommas (h : Thin tokens feed thin)
    (hrun : skipCommas.run feed = .ok ((), rest)) :
    skipCommas.run thin = .ok ((), thin) ∧ Thin tokens rest thin := by
  obtain ⟨done, hfeed, hthin⟩ := h.exists_done
  obtain ⟨commas, hrest, hcommas, -⟩ := exists_skipCommas_run hfeed hrun
  refine ⟨?_, h.commas, done ++ commas, hrest, ?_⟩
  · have hnone : ∀ token ∈ thin.next?, (if token.kind = .punctuator .comma then some ()
        else none) = none := by
      intro token ht
      rw [h.next?_eq] at ht
      simpa using List.find?_some ht
    rw [skipCommas, bind_run, takeRun_run_of_forall_next? hnone]
    rfl
  · rw [withoutCommas_append, hcommas.withoutCommas_eq, List.append_nil]
    exact hthin

end Thin

end SchemaMerge
