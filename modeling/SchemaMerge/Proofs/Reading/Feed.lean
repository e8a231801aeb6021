import SchemaMerge.Proofs.Text.Lines
import SchemaMerge.Proofs.Token.Genuine
import SchemaMerge.Reading.Parser

/-!
# Feeds in front of a text

`Feed.At feed cs` says that a feed stands behind a token and holds the tokens of the text `cs` that
follows it. `Begins cs kind rest` says that `cs` starts with a token, perhaps behind a gap, and goes
on with `rest`. Taking that token leads from a feed in front of `cs` to one in front of `rest`
(`Feed.At.advance`), so what a parser does can be followed on the text alone.
-/

namespace SchemaMerge

/-! ## The next token of a text -/

/-- The characters that printing puts between tokens. -/
def IsGap (gap : List Char) : Prop := ∀ c ∈ gap, c = ' ' ∨ c = '\t' ∨ c = '\n'

/-- The first token of the text is of the kind. -/
def Next (cs : List Char) (kind : TokenKind) : Prop := (scan cs).reading = .ok kind

/-- The text starts with a token of the kind, perhaps behind a gap, and goes on with `rest`. -/
def Begins (cs : List Char) (kind : TokenKind) (rest : List Char) : Prop :=
  ∃ gap lexeme, IsGap gap ∧ Spells lexeme kind ∧ kind.EndsBefore rest ∧ cs = gap ++ lexeme ++ rest

theorem isGap_nil : IsGap [] := by simp [IsGap]

theorem IsGap.append {gap others : List Char} (hg : IsGap gap) (ho : IsGap others) :
    IsGap (gap ++ others) := List.forall_mem_append.2 ⟨hg, ho⟩

theorem IsGap.isIgnored {gap : List Char} (h : IsGap gap) : ∀ c ∈ gap, isIgnored c = true := by
  intro c hc
  rcases h c hc with rfl | rfl | rfl <;> rfl

theorem IsGap.delimited_append {gap cs : List Char} (h : IsGap gap) (hcs : Delimited cs) :
    Delimited (gap ++ cs) := by
  refine headIn_append (fun c hc => ?_) hcs
  rcases h c (List.mem_of_mem_head? hc) with rfl | rfl | rfl <;> rfl

/-- More blanks in front change the gap and nothing else. -/
theorem scan_gap_append {gap : List Char} (h : ∀ c ∈ gap, isIgnored c = true) (cs : List Char) :
    scan (gap ++ cs) = { scan cs with gap := gap ++ (scan cs).gap } := by
  simp only [scan, List.dropWhile_append_of_pos h, List.takeWhile_append_of_pos h,
    List.append_assoc]

/-- What comes next is the same behind a gap. -/
theorem next_gap_append {gap : List Char} (h : IsGap gap) {cs : List Char} {kind : TokenKind} :
    Next (gap ++ cs) kind ↔ Next cs kind := by
  rw [Next, scan_gap_append h.isIgnored]
  rfl

theorem Begins.gap {gap cs rest : List Char} {kind : TokenKind} (hgap : IsGap gap)
    (h : Begins cs kind rest) : Begins (gap ++ cs) kind rest := by
  obtain ⟨before, lexeme, hbefore, hspells, hends, rfl⟩ := h
  exact ⟨gap ++ before, lexeme, hgap.append hbefore, hspells, hends, by simp⟩

/-- A lexeme in front of what ends it is the next token. -/
theorem begins_of_spells {lexeme rest : List Char} {kind : TokenKind} (h : Spells lexeme kind)
    (hends : kind.EndsBefore rest) : Begins (lexeme ++ rest) kind rest :=
  ⟨[], lexeme, isGap_nil, h, hends, rfl⟩

theorem Begins.scan_eq {cs rest : List Char} {kind : TokenKind} (h : Begins cs kind rest) :
    ∃ gap lexeme, IsGap gap ∧ Spells lexeme kind ∧
      scan cs = ⟨gap, lexeme, rest, .ok kind⟩ := by
  obtain ⟨gap, lexeme, hgap, hspells, hends, rfl⟩ := h
  refine ⟨gap, lexeme, hgap, hspells, ?_⟩
  rw [List.append_assoc, scan_gap_append hgap.isIgnored, scan_append_rest hspells hends]
  simp [Scan.token]

theorem Begins.next {cs rest : List Char} {kind : TokenKind} (h : Begins cs kind rest) :
    Next cs kind := by
  obtain ⟨_, _, _, _, hscan⟩ := h.scan_eq
  rw [Next, hscan]

/-- One token comes next. -/
theorem Next.unique {cs : List Char} {kind other : TokenKind} (h : Next cs kind)
    (ho : Next cs other) : kind = other := Except.ok.inj (h.symm.trans ho)

/-! ### Marks and names -/

/-- Anything may follow a mark of one character: the marks for which it matters are the dot and the
signs, which are none of these. -/
theorem endsBefore_mark {c : Char} {mark : Punctuator} (h : Punctuator.ofChar? c = some mark)
    (rest : List Char) : (TokenKind.punctuator mark).EndsBefore rest := by
  unfold Punctuator.ofChar? at h
  split at h <;> cases h <;> trivial

theorem begins_mark {c : Char} {mark : Punctuator} (h : Punctuator.ofChar? c = some mark)
    (rest : List Char) : Begins (c :: rest) (.punctuator mark) rest :=
  begins_of_spells (.mark h) (endsBefore_mark h rest)

theorem endsBefore_nameKind {name : String} {rest : List Char} (h : Delimited rest) :
    (Scan.nameKind name).EndsBefore rest := by
  unfold Scan.nameKind
  split <;> exact h

/-- A name in front of a delimiter is the next token, as a keyword if it is one. -/
theorem begins_name {name : String} {rest : List Char} (h : IsName name) (hrest : Delimited rest) :
    Begins (name.toList ++ rest) (Scan.nameKind name) rest :=
  begins_of_spells h.spells (endsBefore_nameKind hrest)

theorem begins_keyword (word : Keyword) {rest : List Char} (hrest : Delimited rest) :
    Begins (word.text.toList ++ rest) (.keyword word) rest :=
  nameKind_keyword word ▸ begins_name (isName_keyword word) hrest

/-! ## Following the position -/

theorem IsBlockTail.getLast? {cs : List Char} (h : IsBlockTail cs) : cs.getLast? = some '"' := by
  induction h with
  | close => rfl
  | escape h ih => simp [List.getLast?_cons, ih]
  | char _ _ _ ih => simp [List.getLast?_cons, ih]

/-- A string stays on its line. -/
theorem IsStringTail.not_isBreak {cs : List Char} (h : IsStringTail cs) :
    ∀ c ∈ cs, Text.isBreak c = false := by
  induction h with
  | close => exact List.forall_mem_singleton.2 rfl
  | escape hc _ ih => exact List.forall_mem_cons.2 ⟨rfl, List.forall_mem_cons.2 ⟨hc, ih⟩⟩
  | char _ _ hc _ ih => exact List.forall_mem_cons.2 ⟨hc, ih⟩

theorem IsNumber.not_mem_return {cs : List Char} {isFloat : Bool} (h : IsNumber cs isFloat) :
    '\r' ∉ cs := by
  have hdigits {ds : List Char} (h : IsDigits ds) : '\r' ∉ ds := fun hr =>
    absurd (h.2 _ hr) (by decide)
  cases h with
  | mk hwhole hfraction hexponent =>
    simp only [List.mem_append, not_or]
    refine ⟨⟨hdigits hwhole, ?_⟩, ?_⟩
    · cases hfraction with
      | none => simp
      | some hds => simpa using hdigits hds
    · cases hexponent with
      | none => simp
      | some hmark hds =>
        rw [List.mem_append, not_or]
        refine ⟨?_, hdigits hds⟩
        cases hmark with
        | plain he => rcases he with rfl | rfl <;> simp
        | signed he hs => rcases he with rfl | rfl <;> rcases hs with rfl | rfl <;> simp

/-- No token ends with a carriage return. -/
theorem Spells.getLast?_ne {lexeme : List Char} {kind : TokenKind} (h : Spells lexeme kind) :
    lexeme.getLast? ≠ some '\r' := by
  have hmem {cs : List Char} (hcs : '\r' ∉ cs) : cs.getLast? ≠ some '\r' := fun he =>
    hcs (List.mem_of_getLast? he)
  cases h with
  | mark h =>
    rintro ⟨⟩
    cases h
  | dot => decide
  | ellipsis => decide
  | minus => decide
  | plus => decide
  | comment h => exact hmem (by simpa using fun hr => absurd (h _ hr) (by decide))
  | word hc hcs =>
    refine hmem fun hr => ?_
    rcases List.mem_cons.1 hr with rfl | hr
    · exact absurd hc (by decide)
    · exact absurd (hcs _ hr) (by decide)
  | float hsign h =>
    refine hmem ?_
    rcases hsign with rfl | rfl | rfl <;> simpa using h.not_mem_return
  | integer hsign h =>
    refine hmem ?_
    rcases hsign with rfl | rfl | rfl <;> simpa using h.not_mem_return
  | string h => exact hmem (by simpa using fun hr => absurd (h.not_isBreak _ hr) (by decide))
  | blockString h => simp [List.getLast?_cons, h.getLast?]

theorem Spells.ne_nil {lexeme : List Char} {kind : TokenKind} (h : Spells lexeme kind) :
    lexeme ≠ [] := by
  have hnumber {cs : List Char} {isFloat : Bool} (h : IsNumber cs isFloat) : cs ≠ [] := by
    cases h with
    | mk hwhole => simp [hwhole.1]
  cases h with
  | float _ h => simp [hnumber h]
  | integer _ h => simp [hnumber h]
  | _ => simp

/-! ## Feeds -/

/-- The feed holds the tokens of the text. -/
structure Feed.Before (feed : Feed) (cs : List Char) : Prop where
  carried : feed.carried = []
  exists_tracker : ∃ tracker : Tracker, tracker.afterReturn = false ∧
    feed.tokens = tokensFrom feed.file tracker cs

/-- The feed stands behind a token, in front of the text. -/
structure Feed.At (feed : Feed) (cs : List Char) : Prop where
  carried : feed.carried = []
  exists_tracker : ∃ tracker : Tracker, tracker.afterReturn = false ∧
    feed.lastEnd = some tracker.position ∧ feed.tokens = tokensFrom feed.file tracker cs

namespace Feed

variable {feed : Feed} {cs rest : List Char} {kind : TokenKind}

theorem Before.with_carried_nil (h : feed.Before cs) : { feed with carried := [] } = feed := by
  rw [← h.carried]

theorem At.before (h : feed.At cs) : feed.Before cs := by
  obtain ⟨tracker, hreturn, -, htokens⟩ := h.exists_tracker
  exact ⟨h.carried, tracker, hreturn, htokens⟩

/-- The next token of a feed is the one that a scan of its text finds. -/
theorem next?_of_tokens {file : String} {tracker : Tracker}
    (h : feed.tokens = tokensFrom file tracker cs) :
    feed.next? =
      some ⟨(scan cs).kindAt (scanSpan file tracker cs), scanSpan file tracker cs⟩ := by
  rw [Feed.next?, h, tokensFrom_eq, List.head?_cons]

/-- What comes next in the text comes next in the feed. -/
theorem Before.next? (h : feed.Before cs) (hk : Next cs kind) :
    ∃ span, feed.next? = some ⟨kind, span⟩ := by
  obtain ⟨tracker, -, htokens⟩ := h.exists_tracker
  refine ⟨scanSpan feed.file tracker cs, ?_⟩
  rw [next?_of_tokens htokens, Scan.kindAt, hk]

theorem At.next? (h : feed.At cs) (hk : Next cs kind) :
    ∃ span, feed.next? = some ⟨kind, span⟩ := h.before.next? hk

/-- The first token of a text, and the feed behind it. -/
theorem Before.tokens_eq (h : feed.Before cs) (hcs : Begins cs kind rest) :
    ∃ span tokens, feed.tokens = ⟨kind, span⟩ :: tokens ∧
      ({ feed with tokens, lastEnd := some span.stop } : Feed).At rest := by
  obtain ⟨tracker, hreturn, htokens⟩ := h.exists_tracker
  obtain ⟨gap, lexeme, hgap, hspells, hscan⟩ := hcs.scan_eq
  rw [tokensFrom_eq, hscan, if_neg hspells.ne_nil] at htokens
  refine ⟨_, _, htokens, h.carried, (tracker.advance gap).advance lexeme, ?_, ?_, rfl⟩
  · refine Tracker.afterReturn_advance (Tracker.afterReturn_advance hreturn fun hr => ?_)
      hspells.getLast?_ne
    rcases hgap _ (List.mem_of_getLast? hr) with h | h | h <;> exact absurd h (by decide)
  · simp [scanSpan, hscan]

/-- Taking the next token leads behind it. -/
theorem Before.advance (h : feed.Before cs) (hcs : Begins cs kind rest) : feed.advance.At rest := by
  obtain ⟨span, tokens, htokens, hrest⟩ := h.tokens_eq hcs
  rw [Feed.advance, htokens]
  exact hrest

/-- A look at the next token tells its kind. -/
theorem Before.nextIs_of_next (h : feed.Before cs) (hk : Next cs kind) (wanted : TokenKind) :
    feed.nextIs wanted = decide (kind = wanted) := by
  obtain ⟨span, hnext⟩ := h.next? hk
  rw [Feed.nextIs, hnext]

theorem At.nextIs_punctuator_of_not_next (h : feed.At cs) {mark : Punctuator}
    (hm : ¬Next cs (.punctuator mark)) : feed.nextIs (.punctuator mark) = false := by
  obtain ⟨tracker, -, -, htokens⟩ := h.exists_tracker
  rw [Feed.nextIs, next?_of_tokens htokens]
  refine decide_eq_false fun hk => hm ?_
  simp only [Scan.kindAt] at hk
  split at hk
  · next hreading => rw [Next, hreading, hk]
  · cases hk

/-! ### Trailing comments -/

/-- A comment that only spaces and tabs separate from the last token trails it. -/
theorem At.trailing?_of_comment {gap lexeme : List Char} {text : String}
    (h : feed.At (gap ++ lexeme ++ rest)) (hgap : ∀ c ∈ gap, c = ' ' ∨ c = '\t')
    (hspells : Spells lexeme (.comment text))
    (hends : (TokenKind.comment text).EndsBefore rest) : feed.trailing? = some text := by
  obtain ⟨tracker, -, hlast, htokens⟩ := h.exists_tracker
  have hblank : IsGap gap := fun c hc => (hgap c hc).imp_right .inl
  have hscan : scan (gap ++ lexeme ++ rest) = ⟨gap, lexeme, rest, .ok (.comment text)⟩ := by
    rw [List.append_assoc, scan_gap_append hblank.isIgnored, scan_append_rest hspells hends]
    simp [Scan.token]
  have hline : (tracker.advance gap).position.line = tracker.position.line :=
    tracker.line_advance_of_not_isBreak fun c hc => by rcases hgap c hc with rfl | rfl <;> rfl
  simp only [Feed.trailing?, next?_of_tokens htokens, hscan, Scan.kindAt, scanSpan, hlast, hline,
    if_true]

/-- Nothing trails across a line break. -/
theorem At.trailing?_of_line_feed (h : feed.At ('\n' :: cs)) : feed.trailing? = none := by
  obtain ⟨tracker, hreturn, hlast, htokens⟩ := h.exists_tracker
  have hgap : (scan ('\n' :: cs)).gap = '\n' :: (scan cs).gap := by
    have hscan := @scan_gap_append ['\n'] (List.forall_mem_singleton.2 rfl) cs
    simp only [List.singleton_append] at hscan
    rw [hscan]
  have hline : (tracker.advance (scan ('\n' :: cs)).gap).position.line ≠
      tracker.position.line := by
    rw [hgap]
    exact Nat.ne_of_gt (Tracker.line_lt_advance hreturn (scan cs).gap)
  unfold Feed.trailing?
  rw [next?_of_tokens htokens, hlast]
  split
  · next hnext hstop =>
    rw [Option.some.injEq, Token.mk.injEq] at hnext
    cases hstop
    rw [← hnext.2]
    exact if_neg hline
  · rfl

end Feed

end SchemaMerge
