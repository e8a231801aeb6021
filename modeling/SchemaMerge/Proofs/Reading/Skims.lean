import SchemaMerge.Proofs.Reading.Thin

/-!
# Parsers that look past commas

`Skims pre p post` compares two runs of a parser, on a list of tokens and on the list without its
commas. What the first run leaves tells what has come before it: if `p` succeeds and leaves a feed
with `post`, it was given one with `pre`, and then `p` does the same without the commas. So a
condition is carried from the end of a document to its start, and a parser that stops in front of
commas knows which tokens stand behind them. There is one rule for each way to build a parser, and
one for each parser that reads documentation or skips commas.
-/

namespace SchemaMerge

/-- The marks that close a list of entries. -/
def Punctuator.closes : Punctuator → Bool
  | .parenClose | .braceClose => true
  | _ => false

namespace Parser

variable {α β σ τ : Type} {tokens : List Token}

/-- Where `p` succeeds and leaves a feed with `post`, it was given one with `pre`; and behind the
same tokens but for the commas, it gives the same value and leaves feeds that are related. -/
structure SkimsTo (tokens : List Token) (rel : Feed → Feed → Prop) (pre : Feed → Prop)
    (p : Parser α) (post : α → Feed → Prop) : Prop where
  needs : ∀ {feed rest a}, p.run feed = .ok (a, rest) → post a rest → pre feed
  exists_run : ∀ {feed thin rest a}, Thin tokens feed thin → p.run feed = .ok (a, rest) →
    post a rest → ∃ thinRest, p.run thin = .ok (a, thinRest) ∧ rel rest thinRest

/-- The parser leaves the feeds at the same place. -/
abbrev Skims (tokens : List Token) (pre : Feed → Prop) (p : Parser α) (post : α → Feed → Prop) :
    Prop :=
  SkimsTo tokens (Thin tokens) pre p post

/-! ## Sequences -/

section

variable {p q : Parser α} {next : α → Parser β} {rel : Feed → Feed → Prop}
  {pre pre' : Feed → Prop} {post post' : α → Feed → Prop} {last : β → Feed → Prop}

theorem skims_pure {a : α} (h : ∀ feed, post a feed → pre feed) :
    Skims tokens pre (pure a) post where
  needs := by
    rintro feed _ _ ⟨⟩ hpost
    exact h feed hpost
  exists_run := by
    rintro feed thin _ _ hthin ⟨⟩ -
    exact ⟨thin, rfl, hthin⟩

theorem skimsTo_fail (diagnostic : Diagnostic) :
    SkimsTo tokens rel pre (fail diagnostic : Parser α) post where
  needs := by rintro _ _ _ ⟨⟩
  exists_run := by rintro _ _ _ _ - ⟨⟩

/-- The condition behind the first parser is the one in front of the next. -/
theorem SkimsTo.bind (hp : Skims tokens pre p post)
    (hnext : ∀ a, SkimsTo tokens rel (post a) (next a) last) :
    SkimsTo tokens rel pre (p >>= next) last where
  needs {feed rest b} hrun hlast := by
    rw [bind_run] at hrun
    split at hrun
    · next a mid hmid => exact hp.needs hmid ((hnext a).needs hrun hlast)
    · cases hrun
  exists_run {feed thin rest b} hthin hrun hlast := by
    rw [bind_run] at hrun
    split at hrun
    · next a mid hmid =>
      have hpost := (hnext a).needs hrun hlast
      obtain ⟨thinMid, hthinMid, hthin⟩ := hp.exists_run hthin hmid hpost
      rw [bind_run, hthinMid]
      exact (hnext a).exists_run hthin hrun hlast
    · cases hrun

theorem SkimsTo.mono_pre (h : SkimsTo tokens rel pre p post) (hpre : ∀ feed, pre feed → pre' feed) :
    SkimsTo tokens rel pre' p post :=
  ⟨fun hrun hpost => hpre _ (h.needs hrun hpost), h.exists_run⟩

theorem SkimsTo.mono_post (h : SkimsTo tokens rel pre p post)
    (hpost : ∀ a feed, post' a feed → post a feed) : SkimsTo tokens rel pre p post' :=
  ⟨fun hrun hrest => h.needs hrun (hpost _ _ hrest),
    fun hthin hrun hrest => h.exists_run hthin hrun (hpost _ _ hrest)⟩

theorem skimsTo_ite {b : Bool} (hp : SkimsTo tokens rel pre p post)
    (hq : SkimsTo tokens rel pre q post) :
    SkimsTo tokens rel pre (if b then p else q) post := by
  cases b with
  | true => exact hp
  | false => exact hq

/-- Behind a token that was taken, or where it was not there to take. -/
theorem skimsTo_taken {taken : Bool} (pre' : Feed → Prop) (hp : SkimsTo tokens rel pre' p post)
    (hq : SkimsTo tokens rel pre q post) :
    SkimsTo tokens rel (fun feed => taken = false → pre feed) (if taken then p else q) post := by
  cases taken with
  | true => exact hp.mono_pre fun _ _ htaken => nomatch htaken
  | false => exact hq.mono_pre fun _ hpre _ => hpre

end

/-! ## Single tokens -/

section

variable {want : Want α} {kinds : TokenKind → Prop} {kind : TokenKind}

/-- A wanted token is no comma, so it is taken from both lists. -/
theorem skims_expect {post : α → Feed → Prop}
    (hread : ∀ token a, want.read token = some a → kinds token.kind)
    (hcomma : ¬kinds (.punctuator .comma)) :
    Skims tokens (Feed.Faces kinds) (expect want) post where
  needs {feed rest a} hrun _ := by
    rw [expect_run] at hrun
    split at hrun
    · next b hb =>
      obtain ⟨token, hnext, htoken⟩ := Option.bind_eq_some_iff.1 hb
      exact ⟨token, hnext, hread token b htoken⟩
    · cases hrun
  exists_run {feed thin rest a} hthin hrun _ := by
    rw [expect_run] at hrun
    split at hrun
    · next b hb =>
      obtain ⟨rfl, rfl⟩ := Prod.mk.inj (Except.ok.inj hrun)
      obtain ⟨token, hnext, htoken⟩ := Option.bind_eq_some_iff.1 hb
      have hkind : token.kind ≠ .punctuator .comma := fun heq =>
        hcomma (heq ▸ hread token b htoken)
      have hthinNext := hthin.next?_eq_of_not_onComma (Feed.not_onComma_of_next? hnext hkind)
      refine ⟨thin.advance, ?_, hthin.advance hnext hkind⟩
      rw [expect_run, hthinNext, hnext, Option.bind_some, htoken]
    · cases hrun

/-- In front of a token that is wanted there is no comma. -/
theorem skims_expect_solid {post : α → Feed → Prop} (hsolid : want.Solid) :
    Skims tokens (Feed.Faces (· ≠ .punctuator .comma)) (expect want) post :=
  skims_expect (fun token a hread => (hsolid token a hread).1) (by simp)

theorem skims_expect_offComma {post : α → Feed → Prop} (hsolid : want.Solid) :
    Skims tokens Feed.OffComma (expect want) post :=
  (skims_expect_solid hsolid).mono_pre fun _ h => h.clear (by simp)

theorem skims_nextIs {pre : Feed → Prop} (hkind : kind ≠ .punctuator .comma)
    (hpre : ∀ feed, pre feed → feed.Clear (· ≠ kind)) :
    Skims tokens pre (nextIs kind) fun _ => pre where
  needs := by
    rintro feed _ _ ⟨⟩ h
    exact h
  exists_run := by
    rintro feed thin _ _ hthin ⟨⟩ h
    refine ⟨thin, ?_, hthin⟩
    rw [← hthin.nextIs_eq hkind (hpre feed h)]
    rfl

/-- A token that is wanted in no place behind commas is there for both lists or for neither. -/
theorem skims_takeIf (hkind : kind ≠ .punctuator .comma) (hkinds : ¬kinds kind) :
    Skims tokens (Feed.Clear kinds) (takeIf kind) fun taken feed =>
      taken = false → feed.Clear kinds where
  needs {feed rest taken} hrun h := by
    rw [takeIf_eq, bind_run, feed_run] at hrun
    cases hnext : feed.nextIs kind with
    | true => exact (Feed.faces_of_nextIs hnext).clear hkind.symm
    | false =>
      simp only [hnext, Bool.false_eq_true, if_false, pure_run] at hrun
      cases hrun
      exact h rfl
  exists_run {feed thin rest taken} hthin hrun h := by
    rw [takeIf_eq, bind_run, feed_run] at hrun
    rw [takeIf_eq, bind_run, feed_run]
    cases hnext : feed.nextIs kind with
    | true =>
      simp only [hnext, if_true, bind_run, advance_run, pure_run] at hrun
      cases hrun
      obtain ⟨token, hhead, rfl⟩ := Feed.exists_next?_of_nextIs hnext
      have hclear : feed.Clear (· ≠ token.kind) :=
        (Feed.faces_of_nextIs hnext).clear hkind.symm
      simp only [hthin.nextIs_eq hkind hclear, hnext, if_true, bind_run, advance_run, pure_run]
      exact ⟨thin.advance, rfl, hthin.advance hhead hkind⟩
    | false =>
      simp only [hnext, Bool.false_eq_true, if_false, pure_run] at hrun
      cases hrun
      have hclear : feed.Clear (· ≠ kind) := (h rfl).mono fun other hother heq =>
        hkinds (heq ▸ hother)
      simp only [hthin.nextIs_eq hkind hclear, hnext, Bool.false_eq_true, if_false, pure_run]
      exact ⟨thin, rfl, hthin⟩

end

/-! ## Runs of tokens -/

section

variable {r : TokenKind → Option α} {left : Feed → Prop}

/-- A run takes tokens or is in front of what it leaves. -/
theorem faces_or_of_takeRun {feed rest : Feed} {found : List α}
    (hrun : (takeRun r).run feed = .ok (found, rest)) :
    feed.Faces (fun kind => (r kind).isSome) ∨ rest = feed := by
  cases hnext : feed.next? with
  | none =>
    rw [takeRun_run_of_forall_next? (by simp [hnext])] at hrun
    cases hrun
    exact .inr rfl
  | some token =>
    cases hread : r token.kind with
    | none =>
      rw [takeRun_run_of_next? hnext hread] at hrun
      cases hrun
      exact .inr rfl
    | some a => exact .inl ⟨token, hnext, Option.isSome_of_eq_some hread⟩

/-- A run of tokens other than commas is the same in both lists, if none of them stands behind
commas that end it. -/
theorem skims_takeRun (hcomma : r (.punctuator .comma) = none)
    (hleft : ∀ feed, left feed → feed.Clear fun kind => r kind = none) :
    Skims tokens (fun feed => feed.Faces (fun kind => (r kind).isSome) ∨ left feed) (takeRun r)
      fun _ => left where
  needs {feed rest found} hrun h := by
    rcases faces_or_of_takeRun hrun with hfaces | rfl
    · exact .inl hfaces
    · exact .inr h
  exists_run {feed thin rest found} hthin hrun h := by
    obtain ⟨thinRest, hthinRun, hrest⟩ :=
      hthin.exists_splitRun hcomma (Except.ok.inj hrun) (hleft rest h)
    exact ⟨thinRest, congrArg Except.ok hthinRun, hrest⟩

end

/-! ## Loops -/

/-- A loop skims if its rounds do. -/
theorem skims_loop {turn : σ → Parser (α ⊕ τ)} {want : Want β} {body : τ → β → Parser σ}
    (inv : σ → Feed → Prop) (mid : τ → Feed → Prop) {final : α → Feed → Prop}
    (hturn : ∀ state, Skims tokens (inv state) (turn state) (Sum.elim final mid))
    (hbody : ∀ entry, Skims tokens (mid entry) (expect want >>= body entry) inv) (state : σ) :
    Skims tokens (inv state) (loop turn want body state) final := by
  have hall : ∀ {feed rest a}, runLoop turn want body state feed = .ok (a, rest) →
      final a rest → inv state feed ∧ ∀ thin, Thin tokens feed thin →
        ∃ thinRest, (loop turn want body state).run thin = .ok (a, thinRest) ∧
          Thin tokens rest thinRest := by
    intro feed rest a hrun hfinal
    fun_induction runLoop turn want body state feed with
    | case1 => cases hrun
    | case2 state feed result rest₁ h₁ =>
      cases hrun
      refine ⟨(hturn state).needs h₁ hfinal, fun thin hthin => ?_⟩
      obtain ⟨thinRest, hthinRun, hrest⟩ := (hturn state).exists_run hthin h₁ hfinal
      refine ⟨thinRest, ?_, hrest⟩
      rw [loop_eq, bind_run, hthinRun]
      rfl
    | case3 => cases hrun
    | case4 => cases hrun
    | case5 state feed entry rest₁ h₁ b rest₂ h₂ next rest₃ h₃ ih =>
      obtain ⟨hinv, hbehind⟩ := ih hrun
      have hround : (expect want >>= body entry).run rest₁ = .ok (next, rest₃) := by
        rw [bind_run, h₂]
        exact h₃
      have hmid := (hbody entry).needs hround hinv
      refine ⟨(hturn state).needs h₁ hmid, fun thin hthin => ?_⟩
      obtain ⟨thin₁, hthin₁, hthin⟩ := (hturn state).exists_run hthin h₁ hmid
      obtain ⟨thin₃, hthin₃, hthin⟩ := (hbody entry).exists_run hthin hround hinv
      obtain ⟨thinRest, hthinRun, hrest⟩ := hbehind thin₃ hthin
      refine ⟨thinRest, ?_, hrest⟩
      rw [loop_eq, bind_run, hthin₁]
      show (expect want >>= fun b => body entry b >>= loop turn want body).run thin₁ = _
      rw [← bind_bind, bind_run, hthin₃]
      exact hthinRun
  exact ⟨fun hrun hfinal => (hall hrun hfinal).1,
    fun hthin hrun hfinal => (hall hrun hfinal).2 _ hthin⟩

/-! ## Kinds of tokens behind commas -/

/-- No token of one of the kinds goes on with what was read: of the marks there are only some that
close. -/
def Fresh (kinds : TokenKind → Prop) : Prop :=
  ∀ mark : Punctuator, mark.closes = false → ¬kinds (.punctuator mark)

/-- An entry starts with a name, and its list ends with the mark. -/
def EntryKind (close : Punctuator) (kind : TokenKind) : Prop :=
  kind.name?.isSome ∨ kind = .punctuator close

/-- Documentation may stand in front of an entry. -/
def MemberKind (close : Punctuator) (kind : TokenKind) : Prop :=
  kind.description?.isSome ∨ EntryKind close kind

/-- The token may stand between definitions. -/
def BoundaryKind (kind : TokenKind) : Prop := kind.opens = true

/-- A definition starts with the token, or the text ends. -/
def DefinitionKind (kind : TokenKind) : Prop := BoundaryKind kind ∧ kind.description? = none

section

variable {close : Punctuator} {kind : TokenKind}

theorem description?_of_entryKind (h : EntryKind close kind) : kind.description? = none := by
  rcases h with hname | rfl
  · cases kind <;> simp_all [TokenKind.name?, TokenKind.description?]
  · rfl

theorem fresh_memberKind (h : close.closes = true) : Fresh (MemberKind close) := by
  rintro mark hmark (hdescription | hname | hclose)
  · cases hdescription
  · cases hname
  · cases hclose
    rw [h] at hmark
    cases hmark

theorem fresh_entryKind (h : close.closes = true) : Fresh (EntryKind close) :=
  fun mark hmark hkind => fresh_memberKind h mark hmark (.inr hkind)

theorem memberKind_of_comment? (h : kind.comment?.isSome) : MemberKind close kind :=
  .inl (Seam.isSome_description? h)

theorem fresh_boundaryKind : Fresh BoundaryKind := by
  rintro mark - hboundary
  cases hboundary

theorem boundaryKind_of_description? (h : kind.description?.isSome) : BoundaryKind kind := by
  cases kind with
  | keyword => cases h
  | endOfText => rfl
  | _ => exact h

theorem boundaryKind_of_comment? (h : kind.comment?.isSome) : BoundaryKind kind :=
  boundaryKind_of_description? (Seam.isSome_description? h)

theorem not_definitionKind_comma : ¬DefinitionKind (.punctuator .comma) := fun h => nomatch h.1

end

/-! ## Documentation and commas -/

section

variable {kinds : TokenKind → Prop} {feed thin mid rest : Feed}

/-- Commas are passed over, and the other list has none. -/
theorem skims_skipCommas :
    Skims tokens (Feed.Opens kinds) skipCommas fun _ => Feed.Opens kinds where
  needs hrun h := by
    have hoff := not_onComma_of_skipCommas_run hrun
    rwa [Feed.Opens, Feed.ahead?_of_not_onComma hoff, next?_of_skipCommas_run hrun] at h
  exists_run hthin hrun _ := ⟨_, hthin.exists_skipCommas hrun⟩

/-- Behind commas that have been skipped there are no more. -/
theorem skims_skipCommas_faces (hcomma : ¬kinds (.punctuator .comma)) :
    Skims tokens (Feed.Opens kinds) skipCommas fun _ => Feed.Faces kinds :=
  skims_skipCommas.mono_post fun _ _ h => h.opens hcomma

theorem exists_skipCommas_run_eq (feed : Feed) : ∃ mid, skipCommas.run feed = .ok ((), mid) :=
  ⟨_, rfl⟩

/-- A comment trails across commas. -/
theorem trailingComment_run_of_skipCommas (h : skipCommas.run feed = .ok ((), mid)) :
    trailingComment.run feed =
      match mid.trailing? with
      | some comment => .ok ([comment], mid.advance)
      | none => .ok ([], mid) := by
  rw [trailingComment_eq, bind_run, h]
  simp only [bind_run, feed_run]
  cases mid.trailing? <;> rfl

/-- So it trails without them. -/
theorem skims_trailingComment (hkinds : ∀ kind, kind.comment?.isSome → kinds kind) :
    Skims tokens (Feed.Opens kinds) trailingComment fun _ => Feed.Opens kinds where
  needs {feed rest texts} hrun h := by
    obtain ⟨mid, hmid⟩ := exists_skipCommas_run_eq feed
    rw [trailingComment_run_of_skipCommas hmid] at hrun
    have hnext := next?_of_skipCommas_run hmid
    split at hrun
    · next text htrailing =>
      obtain ⟨span, hcomment⟩ := Feed.exists_next?_of_trailing? htrailing
      exact ⟨_, hnext.symm.trans hcomment, hkinds _ rfl⟩
    · cases hrun
      rwa [Feed.Opens, Feed.ahead?_of_not_onComma (not_onComma_of_skipCommas_run hmid), hnext] at h
  exists_run {feed thin rest texts} hthin hrun h := by
    obtain ⟨mid, hmid⟩ := exists_skipCommas_run_eq feed
    obtain ⟨hthinMid, hthin⟩ := hthin.exists_skipCommas hmid
    have hoff := not_onComma_of_skipCommas_run hmid
    rw [trailingComment_run_of_skipCommas hmid] at hrun
    rw [trailingComment_run_of_skipCommas hthinMid, hthin.trailing?_eq hoff]
    split at hrun
    · next text htrailing =>
      cases hrun
      obtain ⟨span, hcomment⟩ := Feed.exists_next?_of_trailing? htrailing
      exact ⟨thin.advance, rfl, hthin.advance hcomment (by simp)⟩
    · cases hrun
      exact ⟨thin, rfl, hthin⟩

theorem skims_innerComments :
    Skims tokens Feed.OffComma innerComments fun _ => Feed.OffComma :=
  (skims_takeRun rfl fun _ h => h.mono fun _ => False.elim).mono_pre fun _ h =>
    h.elim (fun hfaces => hfaces.clear (by simp [TokenKind.comment?])) id

/-- No comments are carried over to descriptions that are read here. -/
theorem skims_swapCarried (pre : Feed → Prop) :
    Skims tokens (fun feed => pre { feed with carried := [] }) (swapCarried []) fun _ => pre where
  needs := by
    rintro feed _ _ ⟨⟩ h
    exact h
  exists_run := by
    rintro feed thin _ _ hthin ⟨⟩ -
    obtain ⟨done, hfeed, hthinFeed⟩ := hthin.exists_done
    refine ⟨{ thin with carried := [] }, ?_, hthin.commas, done, hfeed.swapCarried [],
      hthinFeed.swapCarried []⟩
    rw [swapCarried_run, hfeed.carried_eq, hthinFeed.carried_eq]

theorem skims_descriptions {left : Feed → Prop}
    (hleft : ∀ feed, left feed → feed.Clear fun kind => kind.description? = none) :
    Skims tokens (fun feed => feed.Faces (fun kind => kind.description?.isSome) ∨
      left { feed with carried := [] }) descriptions fun _ => left :=
  (skims_swapCarried _).bind fun _ => (skims_takeRun rfl hleft).bind fun _ =>
    skims_pure fun _ h => h

theorem skims_descriptions_offComma :
    Skims tokens Feed.OffComma descriptions fun _ => Feed.OffComma :=
  (skims_descriptions fun _ h => h.mono fun _ => False.elim).mono_pre fun _ h =>
    h.elim (fun hfaces => hfaces.clear (by simp [TokenKind.description?])) id

/-- Documentation may stand in front of what comes next. -/
theorem skims_descriptions_opens {behind : TokenKind → Prop}
    (hbehind : ∀ kind, behind kind → kind.description? = none)
    (hkinds : ∀ kind, kind.description?.isSome ∨ behind kind → kinds kind) :
    Skims tokens (Feed.Opens kinds) descriptions fun _ => Feed.Opens behind :=
  (skims_descriptions fun _ h => (h.mono hbehind).clear).mono_pre fun feed h => by
    rcases h with hfaces | hopens
    · exact (hfaces.opens (by simp [TokenKind.description?])).mono fun kind hkind =>
        hkinds kind (.inl hkind)
    · exact Feed.Opens.mono hopens fun kind hkind => hkinds kind (.inr hkind)

end

end Parser

end SchemaMerge
