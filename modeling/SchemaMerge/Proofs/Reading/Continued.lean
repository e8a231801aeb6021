import SchemaMerge.Proofs.Reading.Handover

/-!
# Documents across a seam

What stands behind a seam is read as if it stood alone: the comments that a header without a body
has carried over it are those that would describe the next definition anyway. So a list of tokens
that goes on behind a seam gives the definitions of the first list, moved, and then those of the
rest (`Seam.Whole.ofTokens_eq`).
-/

namespace SchemaMerge

open SchemaMerge.Parser

/-! ## Reading into a document -/

namespace Parser

/-- The descriptions of the next definition, or the document where the text ends. -/
def documentTurn (d : Document) : Parser (Document ⊕ (Document × List String)) := do
  let texts ← descriptions
  if ← nextIs .endOfText then return .inl d else return .inr (d, texts)

/-- All definitions up to the end of the text, behind those of a document. -/
def documentFrom (d : Document) : Parser Document :=
  loop documentTurn Want.definition (fun (d, texts) word => definitionTail d texts word) d

theorem document_eq : document = documentFrom .empty := rfl

/-- The descriptions in front of the first definition. -/
def described (tokens : List Token) : List String :=
  (tokens.takeWhile (Seam.inRun TokenKind.description?)).filterMap fun token =>
    token.kind.description?

/-- The tokens from the first definition on. -/
def defined (tokens : List Token) : List Token :=
  tokens.dropWhile (Seam.inRun TokenKind.description?)

theorem exists_descriptions_run (feed : Feed) :
    ∃ lastEnd, descriptions.run feed = .ok (feed.carried ++ described feed.tokens,
      ⟨feed.file, defined feed.tokens, lastEnd, []⟩) := by
  simp only [descriptions, bind_run, swapCarried_run, takeRun_run, pure_run, Seam.splitRun_eq]
  exact ⟨_, rfl⟩

section

variable {d : Document} {feed rest : Feed} {texts : List String}

theorem documentTurn_run_eq_inl (h : descriptions.run feed = .ok (texts, rest))
    (hend : rest.nextIs .endOfText = true) : (documentTurn d).run feed = .ok (.inl d, rest) := by
  simp only [documentTurn, bind_run, h, nextIs, feed_run, pure_run, hend, if_true]

theorem documentTurn_run_eq_inr (h : descriptions.run feed = .ok (texts, rest))
    (hend : rest.nextIs .endOfText = false) :
    (documentTurn d).run feed = .ok (.inr (d, texts), rest) := by
  simp only [documentTurn, bind_run, h, nextIs, feed_run, pure_run, hend, Bool.false_eq_true,
    if_false]

theorem documentFrom_run_of_inl (h : (documentTurn d).run feed = .ok (.inl d, rest)) :
    (documentFrom d).run feed = .ok (d, rest) := by
  rw [documentFrom, loop_eq, bind_run, h]
  rfl

theorem map_documentFrom_run_of_end {token : Token} {tokens : List Token}
    (h : defined feed.tokens = token :: tokens) (hend : token.kind = .endOfText) :
    ((documentFrom d).run feed).map Prod.fst = .ok d := by
  obtain ⟨lastEnd, hrun⟩ := exists_descriptions_run feed
  have hturn : (documentTurn d).run feed = .ok (.inl d, _) :=
    documentTurn_run_eq_inl hrun (by simp [Feed.nextIs, Feed.next?, h, hend])
  rw [documentFrom_run_of_inl hturn]
  rfl

theorem documentFrom_run_of_inr {word : DefinitionWord × Span} {next : Document}
    {rest₂ rest₃ : Feed} (h : (documentTurn d).run feed = .ok (.inr (d, texts), rest))
    (hword : (expect Want.definition).run rest = .ok (word, rest₂))
    (htail : (definitionTail d texts word).run rest₂ = .ok (next, rest₃)) :
    (documentFrom d).run feed = (documentFrom next).run rest₃ := by
  rw [documentFrom, loop_eq, bind_run, h]
  show (expect Want.definition >>= _).run rest = _
  rw [bind_run, hword]
  show (definitionTail d texts word >>= _).run rest₂ = _
  rw [bind_run, htail]
  rfl

/-- The next definition is read alike, wherever the last token ended. -/
theorem documentFrom_run_congr (d : Document) {other : Feed} (hfile : feed.file = other.file)
    (htexts : feed.carried ++ described feed.tokens = other.carried ++ described other.tokens)
    (hdefined : defined feed.tokens = defined other.tokens) (hne : defined other.tokens ≠ []) :
    ((documentFrom d).run feed).map Prod.fst = ((documentFrom d).run other).map Prod.fst := by
  obtain ⟨token, tokens, htoken⟩ := List.exists_cons_of_ne_nil hne
  obtain ⟨lastEnd, hrun⟩ := exists_descriptions_run feed
  obtain ⟨otherEnd, hother⟩ := exists_descriptions_run other
  rw [hdefined, htoken] at hrun
  rw [← hfile, ← htexts, htoken] at hother
  rw [documentFrom, loop_eq]
  simp only [documentTurn, bind_run, hrun, hother, nextIs, feed_run, pure_run, Feed.nextIs,
    Feed.next?, List.head?_cons]
  by_cases hend : token.kind = .endOfText
  · simp [hend, Except.map]
  · simp only [hend, decide_false, Bool.false_eq_true, if_false, pure_run, bind_run, expect_run,
      Feed.next?, List.head?_cons, Option.bind_some]
    cases Want.definition.read token with
    | none => rfl
    | some word => rfl

end

/-! ## Behind another document -/

theorem bind_bind {α β γ : Type} (p : Parser α) (f : α → Parser β) (g : β → Parser γ) :
    p >>= f >>= g = p >>= fun a => f a >>= g := by
  ext feed
  simp only [bind_run]
  cases p.run feed <;> rfl

theorem pure_bind_eq {α β : Type} (a : α) (f : α → Parser β) : pure a >>= f = f a := rfl

/-- A change of the state that every round keeps changes the result of a loop. -/
theorem loop_map {α β σ τ : Type} {turn : σ → Parser (α ⊕ τ)} {want : Want β}
    {body : τ → β → Parser σ} (changeState : σ → σ) (changeEntry : τ → τ) (changeResult : α → α)
    (hturn : ∀ state, turn (changeState state) =
      turn state >>= fun turned => pure (turned.map changeResult changeEntry))
    (hbody : ∀ entry b, body (changeEntry entry) b =
      body entry b >>= fun state => pure (changeState state)) (state : σ) :
    loop turn want body (changeState state) =
      loop turn want body state >>= fun result => pure (changeResult result) := by
  ext feed
  rw [bind_run, show (loop turn want body state).run feed = runLoop turn want body state feed
    from rfl]
  fun_induction runLoop turn want body state feed with
  | case1 state feed e h₁ => simp only [loop_eq, bind_run, hturn, h₁]
  | case2 state feed result rest h₁ =>
    simp only [loop_eq, bind_run, hturn, h₁, pure_run, Sum.map_inl]
  | case3 state feed entry rest₁ h₁ e h₂ =>
    rw [loop_eq]
    simp only [bind_run, hturn, h₁, pure_run, Sum.map_inr, h₂]
  | case4 state feed entry rest₁ h₁ b rest₂ h₂ e h₃ =>
    rw [loop_eq]
    simp only [bind_run, hturn, h₁, pure_run, Sum.map_inr, h₂, hbody, h₃]
  | case5 state feed entry rest₁ h₁ b rest₂ h₂ next rest₃ h₃ ih =>
    rw [loop_eq]
    simp only [bind_run, hturn, h₁, pure_run, Sum.map_inr, h₂, hbody, h₃, ih]

theorem documentTurn_append (d e : Document) :
    documentTurn (d.append e) = documentTurn e >>= fun turned =>
      pure (turned.map d.append (Prod.map d.append id)) := by
  ext feed
  simp only [documentTurn, bind_run]
  split
  · split
    · split
      · rfl
      · rfl
    · rfl
  · rfl

theorem definitionTail_append (d e : Document) (texts : List String)
    (word : DefinitionWord × Span) :
    definitionTail (d.append e) texts word =
      definitionTail e texts word >>= fun e' => pure (d.append e') := by
  obtain ⟨word, span⟩ := word
  cases word <;>
    simp only [definitionTail, bind_bind, pure_bind_eq, Document.append, List.append_assoc]

/-- What is read behind a document is what is read behind none. -/
theorem documentFrom_append (d e : Document) :
    documentFrom (d.append e) = documentFrom e >>= fun read => pure (d.append read) :=
  loop_map d.append (Prod.map d.append id) d.append (documentTurn_append d)
    (fun (e, texts) word => definitionTail_append d e texts word) e

end Parser

namespace Seam

variable {s : Seam} {feed other rest : Feed} {d : Document}

/-! ## The next definition -/

theorem moves_definition (ρ : Relocation) : Moves ρ .definition (Prod.map id ρ.span) := by
  intro token a hread
  have hmoved : Want.definition.read (ρ.token token) = some (Prod.map id ρ.span a) := by
    obtain ⟨word, hword, rfl⟩ := Option.map_eq_some_iff.1 hread
    exact Option.map_eq_some_iff.2 ⟨word, hword, rfl⟩
  obtain ⟨word, hword, -⟩ := Option.map_eq_some_iff.1 hread
  have hkind : token.kind = .keyword word.keyword := by simpa using List.find?_some hword
  exact ⟨hkind ▸ rfl, by simp [hkind], hmoved⟩

/-- The feed of what stands behind the seam, and nothing else. -/
def fresh (s : Seam) : Feed := .ofTokens (s.move.file s.file) s.rest

theorem Whole.defined_rest_ne_nil (hs : s.Whole) : defined s.rest ≠ [] := by
  obtain ⟨token, htoken, hkind⟩ := hs.closes
  intro hnil
  exact absurd (List.dropWhile_eq_nil_iff.1 hnil token htoken)
    (by simp [inRun, hkind, TokenKind.description?])

theorem defined_append {texts tokens : List Token}
    (h : ∀ token ∈ texts, inRun TokenKind.description? token) :
    defined (texts ++ tokens) = defined tokens := List.dropWhile_append_of_pos h

theorem described_append {texts tokens : List Token}
    (h : ∀ token ∈ texts, inRun TokenKind.description? token) :
    described (texts ++ tokens) =
      texts.filterMap (fun token => token.kind.description?) ++ described tokens := by
  rw [described, List.takeWhile_append_of_pos h, List.filterMap_append, described]

/-- Comments that were carried over the seam describe what they would describe anyway. -/
theorem Whole.documentFrom_run_others (hs : s.Whole) (d : Document) (lastEnd : Option Position) :
    ((documentFrom d).run ⟨s.move.file s.file, s.others, lastEnd, s.comments⟩).map Prod.fst =
      ((documentFrom d).run s.fresh).map Prod.fst := by
  have hcomments : ∀ token ∈ s.rest.takeWhile (inRun TokenKind.comment?),
      inRun TokenKind.comment? token := fun token ht => List.mem_takeWhile_imp ht
  have hdescribe : ∀ token ∈ s.rest.takeWhile (inRun TokenKind.comment?),
      inRun TokenKind.description? token := fun token ht => isSome_description? (hcomments token ht)
  have hsplit : s.rest.takeWhile (inRun TokenKind.comment?) ++ s.others = s.rest :=
    List.takeWhile_append_dropWhile
  refine documentFrom_run_congr d rfl ?_ ?_ hs.defined_rest_ne_nil
  · show s.comments ++ described s.others = described s.rest
    rw [← hsplit, described_append hdescribe, comments,
      List.filterMap_congr fun token ht => description?_of_comment? (hcomments token ht)]
  · show defined s.others = defined s.rest
    rw [← hsplit, defined_append hdescribe]

/-! ## Definition by definition -/

/-- All tokens in front of the seam are read, and the rest is read as if it stood alone. -/
structure ReadsOn (s : Seam) (other : Feed) : Prop where
  proper : ∀ token ∈ s.tokens, token.kind.isProper = true
  run_eq : ∀ d, ((documentFrom d).run other).map Prod.fst =
    ((documentFrom d).run s.fresh).map Prod.fst

theorem descriptions_run_short (carried : List String) (done left : List Token) :
    descriptions.run (s.short carried done left) = .ok (carried ++ described left,
      s.short [] (done ++ left.takeWhile (inRun TokenKind.description?)) (defined left)) := by
  have hrun := @splitRun_short s [] _ _ proper_description? done left
  rw [descriptions, bind_run, swapCarried_run]
  show (takeRun TokenKind.description? >>= _).run (s.short [] done left) = _
  rw [bind_run, takeRun_run, show (s.short [] done left).tokens = left ++ [s.stop] from rfl, hrun]
  rfl

theorem descriptions_run_long (carried : List String) (done : List Token) {left : List Token}
    (h : defined left ≠ []) :
    descriptions.run (s.long carried done left) = .ok (carried ++ described left,
      s.long [] (done ++ left.takeWhile (inRun TokenKind.description?)) (defined left)) := by
  have hrun := @splitRun_long s [] _ TokenKind.description? left done fun hnil => absurd hnil h
  rw [descriptions, bind_run, swapCarried_run]
  show (takeRun TokenKind.description? >>= _).run (s.long [] done left) = _
  rw [bind_run, takeRun_run, show (s.long [] done left).tokens =
    left.map s.move.token ++ s.next :: s.behind from rfl, hrun]
  rfl

/-- Where all tokens in front of the seam are read, what stands behind it is read as if it stood
alone. -/
theorem Whole.documentFrom_run_long (hs : s.Whole) (d : Document) {carried : List String}
    {done left : List Token} (htokens : s.tokens = done ++ left) (hleft : defined left = [])
    (hmeet : carried = [] ∨ s.next.kind = .endOfText ∨
      (s.short carried done left).tokens ≠ [s.stop]) :
    ((documentFrom d).run (s.long carried done left)).map Prod.fst =
      ((documentFrom d).run s.fresh).map Prod.fst := by
  have hdescribe := List.dropWhile_eq_nil_iff.1 hleft
  by_cases hend : s.next.kind = .endOfText
  · -- Both lists end here, and descriptions with no definition behind them are dropped.
    have hrest : defined s.rest = s.next :: s.behind :=
      List.dropWhile_cons_of_neg (by simp [inRun, hend, TokenKind.description?])
    have hmoved : ∀ token ∈ left.map s.move.token, inRun TokenKind.description? token :=
      List.forall_mem_map.2 hdescribe
    have hlong : defined (s.long carried done left).tokens = s.next :: s.behind :=
      (defined_append hmoved).trans hrest
    have hfresh : defined s.fresh.tokens = s.next :: s.behind := hrest
    rw [map_documentFrom_run_of_end hlong hend, map_documentFrom_run_of_end hfresh hend]
  · -- No description stands last in front of the seam, so nothing is left there.
    have hplain := (hs.ends.resolve_left hend).1
    obtain rfl : left = [] := List.getLast?_eq_none_iff.1 <|
      Option.eq_none_iff_forall_ne_some.2 fun last hlast => by
        have hnone := hplain.last last (by simp [htokens, List.getLast?_append, hlast])
        have hsome := hdescribe last (List.mem_of_getLast? hlast)
        simp [inRun, hnone] at hsome
    obtain rfl : carried = [] := hmeet.resolve_right (not_or.2 ⟨hend, not_not.2 rfl⟩)
    exact documentFrom_run_congr d rfl rfl rfl hs.defined_rest_ne_nil

section

variable {turned : Document ⊕ (Document × List String)}

/-- Behind the same tokens a round comes to the same definition in both lists, or to the end of the
one. -/
theorem At.documentTurn {carried : List String} (hs : s.Whole) (hat : s.At carried feed other)
    (hmeet : carried = [] ∨ s.next.kind = .endOfText ∨ feed.tokens ≠ [s.stop])
    (hrun : (documentTurn d).run feed = .ok (turned, rest)) :
    (turned = .inl d ∧ s.ReadsOn other) ∨
    ∃ texts otherRest, turned = .inr (d, texts) ∧ s.At [] rest otherRest ∧
      (documentTurn (relocate s.move d)).run other =
        .ok (.inr (relocate s.move d, texts), otherRest) := by
  obtain ⟨done, left, htokens, hdone, rfl, rfl⟩ := hat
  have hshort := @descriptions_run_short s carried done left
  have hproper : ∀ token ∈ done ++ left.takeWhile (inRun TokenKind.description?),
      token.kind.isProper = true := by
    refine List.forall_mem_append.2 ⟨hdone, fun token ht => ?_⟩
    have hread : inRun TokenKind.description? token = true := List.mem_takeWhile_imp ht
    exact (proper_description? _ _ (Option.some_get hread).symm).1
  have hsplit : left.takeWhile (inRun TokenKind.description?) ++ defined left = left :=
    List.takeWhile_append_dropWhile
  cases hleft : defined left with
  | nil =>
    rw [hleft] at hshort hsplit
    rw [documentTurn_run_eq_inl hshort (by simp [Feed.nextIs, Feed.next?, short, s.kind_stop])]
      at hrun
    obtain ⟨rfl, rfl⟩ := Prod.mk.inj (Except.ok.inj hrun)
    rw [List.append_nil] at hsplit
    refine .inl ⟨rfl, ?_, fun e => hs.documentFrom_run_long e htokens hleft hmeet⟩
    rw [htokens, ← hsplit]
    exact hproper
  | cons token more =>
    have hlong := @descriptions_run_long s carried done left (by simp [hleft])
    rw [hleft] at hshort hlong hsplit
    have hkind : token.kind ≠ .endOfText := hs.inner token (by rw [htokens, ← hsplit]; simp)
    rw [documentTurn_run_eq_inr hshort (by simp [Feed.nextIs, Feed.next?, short, hkind])] at hrun
    obtain ⟨rfl, rfl⟩ := Prod.mk.inj (Except.ok.inj hrun)
    refine .inr ⟨_, _, rfl, ⟨_, _, ?_, hproper, rfl, rfl⟩,
      documentTurn_run_eq_inr hlong (by simp [Feed.nextIs, Feed.next?, long, hkind])⟩
    rw [htokens, List.append_assoc, hsplit]

theorem Over.documentTurn (hs : s.Whole) (hover : s.Over feed other)
    (hrun : (documentTurn d).run feed = .ok (turned, rest)) :
    turned = .inl d ∧ s.ReadsOn other := by
  obtain ⟨lastEnd, rfl⟩ := hover.exists_other
  obtain ⟨_, hfeed⟩ := exists_descriptions_run feed
  have hstop : defined feed.tokens = [s.stop] := by
    simp [defined, hover.tokens, inRun, s.kind_stop, TokenKind.description?]
  rw [documentTurn_run_eq_inl hfeed (by simp [Feed.nextIs, Feed.next?, hstop, s.kind_stop])]
    at hrun
  obtain ⟨rfl, rfl⟩ := Prod.mk.inj (Except.ok.inj hrun)
  exact ⟨rfl, hover.proper, fun e => hs.documentFrom_run_others e lastEnd⟩

/-- A round either comes to the end of the one list, and then what stands behind the seam is read as
if it stood alone, or to the same definition in both. -/
theorem Handover.documentTurn (hs : s.Whole) (h : s.Handover feed other)
    (hrun : (documentTurn d).run feed = .ok (turned, rest)) :
    (turned = .inl d ∧ s.ReadsOn other) ∨
    ∃ texts otherRest, turned = .inr (d, texts) ∧ s.At [] rest otherRest ∧
      (documentTurn (relocate s.move d)).run other =
        .ok (.inr (relocate s.move d, texts), otherRest) := by
  cases h with
  | inside hat hmeet => exact hat.documentTurn hs hmeet hrun
  | past hover => exact .inl (hover.documentTurn hs hrun)

end

/-- **The definitions in front of a seam are followed by those that stand behind it**, as these are
read alone. By induction on the definitions: each of them leaves a handover to the next one. -/
theorem documentFrom_run_of_handover (hs : s.Whole) (h : s.Handover feed other) {d' : Document}
    (hrun : (documentFrom d).run feed = .ok (d', rest)) :
    (∀ token ∈ s.tokens, token.kind.isProper = true) ∧
      ((documentFrom (relocate s.move d)).run other).map Prod.fst =
        ((documentFrom (relocate s.move d')).run s.fresh).map Prod.fst := by
  change runLoop documentTurn Want.definition
    (fun (d, texts) word => definitionTail d texts word) d feed = .ok (d', rest) at hrun
  fun_induction runLoop documentTurn Want.definition
    (fun (d, texts) word => definitionTail d texts word) d feed generalizing other with
  | case1 => cases hrun
  | case2 d feed result rest₁ h₁ =>
    rcases h.documentTurn hs h₁ with ⟨hturned, hreads⟩ | ⟨_, _, hturned, _⟩
    · obtain rfl : result = d := Sum.inl.inj hturned
      obtain ⟨rfl, -⟩ := Prod.mk.inj (Except.ok.inj hrun)
      exact ⟨hreads.proper, hreads.run_eq _⟩
    · cases hturned
  | case3 => cases hrun
  | case4 => cases hrun
  | case5 d feed entry rest₁ h₁ word rest₂ h₂ next rest₃ h₃ ih =>
    rcases h.documentTurn hs h₁ with ⟨hturned, -⟩ | ⟨texts, other₁, hturned, hat₁, hother₁⟩
    · cases hturned
    · obtain rfl : entry = (d, texts) := Sum.inr.inj hturned
      obtain ⟨other₂, hother₂, hat₂⟩ := (follows_expect (moves_definition _)).exists hat₁ h₂
      obtain ⟨other₃, hother₃, hnext⟩ :=
        handsOver_definitionTail hs d texts word rest₂ other₂ hat₂ next rest₃ h₃
      rw [documentFrom_run_of_inr hother₁ hother₂ hother₃]
      exact ih hnext hrun

end Seam

/-! ## Documents -/

namespace Document

theorem ofTokens_eq_map (file : String) (tokens : List Token) :
    ofTokens file tokens = ((documentFrom .empty).run (.ofTokens file tokens)).map Prod.fst := by
  rw [ofTokens, document_eq]
  cases (documentFrom .empty).run (.ofTokens file tokens) <;> rfl

theorem append_empty (d : Document) : d.append .empty = d := by simp [append, empty]

variable {file : String} {tokens : List Token} {d : Document}

/-- The first token behind the descriptions starts a definition or ends the text. -/
theorem exists_defined_of_ofTokens (h : ofTokens file tokens = .ok d) :
    ∃ token ∈ (defined tokens).head?, token.kind.opens = true := by
  obtain ⟨lastEnd, hrun⟩ := exists_descriptions_run (.ofTokens file tokens)
  change _ = Except.ok (_, (⟨file, defined tokens, lastEnd, []⟩ : Feed)) at hrun
  by_cases hend : Feed.nextIs ⟨file, defined tokens, lastEnd, []⟩ .endOfText = true
  · simp only [Feed.nextIs] at hend
    split at hend
    · next token hnext => exact ⟨token, hnext, by rw [of_decide_eq_true hend]; rfl⟩
    · cases hend
  · rw [Bool.not_eq_true] at hend
    rw [ofTokens_eq_map, documentFrom, loop_eq, bind_run, documentTurn_run_eq_inr hrun hend] at h
    simp only [bind_run, expect_run] at h
    cases hread : (Feed.next? ⟨file, defined tokens, lastEnd, []⟩).bind Want.definition.read with
    | none =>
      rw [hread] at h
      cases h
    | some word =>
      obtain ⟨token, hnext, hword⟩ := Option.bind_eq_some_iff.1 hread
      obtain ⟨word, hfound, -⟩ := Option.map_eq_some_iff.1 hword
      have hkind : token.kind = .keyword word.keyword := by simpa using List.find?_some hfound
      refine ⟨token, hnext, ?_⟩
      rw [hkind, TokenKind.opens]
      exact List.any_eq_true.2 ⟨word, List.mem_of_find?_eq_some hfound, by simp⟩

/-- The first token of a document, some comments apart, may stand between definitions. -/
theorem exists_opens_of_ofTokens (h : ofTokens file tokens = .ok d) {p : Token → Bool}
    (hp : ∀ token, p token → Seam.inRun TokenKind.description? token) :
    ∃ token ∈ (tokens.dropWhile p).head?, token.kind.opens = true := by
  have hsplit : tokens.takeWhile p ++ tokens.dropWhile p = tokens := List.takeWhile_append_dropWhile
  have hfront : ∀ token ∈ tokens.takeWhile p, Seam.inRun TokenKind.description? token :=
    fun token ht => hp token (List.mem_takeWhile_imp ht)
  have hdefined : defined (tokens.dropWhile p) = defined tokens := by
    conv_rhs => rw [← hsplit]
    exact (Seam.defined_append hfront).symm
  obtain ⟨token, htoken, hopens⟩ := exists_defined_of_ofTokens h
  rw [← hdefined] at htoken
  cases hdrop : tokens.dropWhile p with
  | nil => simp [hdrop, defined] at htoken
  | cons first more =>
    refine ⟨first, rfl, ?_⟩
    by_cases hdescribe : Seam.inRun TokenKind.description? first
    · cases hkind : first.kind <;> simp_all [Seam.inRun, TokenKind.description?, TokenKind.opens]
    · rw [hdrop, defined, List.dropWhile_cons_of_neg hdescribe] at htoken
      obtain rfl := Option.some.inj htoken
      exact hopens

theorem exists_cons_of_ofTokens (h : ofTokens file tokens = .ok d) :
    ∃ first more, tokens = first :: more ∧ first.kind.opens = true := by
  have hnone : tokens.dropWhile (fun _ => false) = tokens := by simp
  obtain ⟨first, hfirst, hopens⟩ := exists_opens_of_ofTokens h (p := fun _ => false) nofun
  rw [hnone] at hfirst
  obtain ⟨more, hmore⟩ := List.head?_eq_some_iff.1 hfirst
  exact ⟨first, more, hmore, hopens⟩

end Document

/-- **What stands behind a seam gives the definitions that follow.** -/
theorem Seam.Whole.ofTokens_eq {s : Seam} (hs : s.Whole) {d : Document}
    (h : Document.ofTokens s.file (s.tokens ++ [s.stop]) = .ok d) :
    (∀ token ∈ s.tokens, token.kind.isProper = true) ∧
      Document.ofTokens (s.move.file s.file) (s.tokens.map s.move.token ++ s.rest) =
        (Document.ofTokens (s.move.file s.file) s.rest).map (relocate s.move d).append := by
  rw [Document.ofTokens_eq_map] at h
  cases hrun : (documentFrom .empty).run (.ofTokens s.file (s.tokens ++ [s.stop])) with
  | error => rw [hrun] at h; cases h
  | ok read =>
    obtain ⟨d', rest⟩ := read
    rw [hrun] at h
    obtain rfl : d' = d := Except.ok.inj h
    have hat : s.At [] (.ofTokens s.file (s.tokens ++ [s.stop]))
        (.ofTokens (s.move.file s.file) (s.tokens.map s.move.token ++ s.rest)) :=
      ⟨[], s.tokens, rfl, nofun, rfl, rfl⟩
    obtain ⟨hproper, heq⟩ := documentFrom_run_of_handover hs (.inside hat (.inl rfl)) hrun
    refine ⟨hproper, ?_⟩
    rw [Document.ofTokens_eq_map, Document.ofTokens_eq_map]
    refine heq.trans ?_
    rw [← Document.append_empty (relocate s.move d'), documentFrom_append, fresh, bind_run,
      Document.append_empty]
    cases (documentFrom .empty).run (.ofTokens (s.move.file s.file) s.rest) <;> rfl

end SchemaMerge
