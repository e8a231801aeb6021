import SchemaMerge.Proofs.Token.Genuine

/-!
# Tokens and gaps tile the text

No character of a text is lost in scanning it. Between two tokens there are only ignored characters,
and in front of a character that runs into a name or number also that name or number, which the
fault reports (`TokenKind.FitsBehind`). The characters under a token tell which token it is
(`TokenKind.WrittenAs`): it is written as its text, but for integers, which are kept in canonical
form, and block strings, which are kept with line feeds for line breaks. `Tiles` says both of all
tokens of a text in a row, and `tiles_ofText` that they are so for every text.
-/

namespace SchemaMerge

/-! ## Faults -/

/-- What stands before characters at fault, behind the characters that are ignored, and the
characters at fault themselves. -/
inductive Faulty : List Char → List Char → LexicalCause → Prop
  | character {c : Char} : Faulty [] [c] (.unexpectedCharacter c)
  | adjacency {word : List Char} {c : Char} :
    Faulty word [c] (.invalidAdjacency (String.ofList word) c)
  | string {tail : List Char} : Faulty [] ('"' :: tail) .unterminatedString
  | blockString {tail : List Char} : Faulty [] ('"' :: '"' :: '"' :: tail) .unterminatedBlockString

namespace Scan

/-- The scan has found a token, or characters at fault. -/
def Explained (scan : Scan) : Prop :=
  ∀ cause, scan.reading = .error cause → Faulty scan.gap scan.lexeme cause

theorem explained_token {lexeme rest : List Char} {kind : TokenKind} :
    Explained (token lexeme rest kind) := by
  rintro _ ⟨⟩

theorem explained_word {lexeme rest : List Char} {kind : TokenKind} :
    Explained (word lexeme rest kind) := by
  unfold word
  split
  · exact explained_token
  · split
    · exact explained_token
    · rintro _ ⟨⟩
      exact .adjacency

theorem explained_signed {sign : Char} {mark : Punctuator} {rest : List Char} :
    Explained (signed sign mark rest) := by
  unfold signed
  split
  · split
    · exact explained_word
    · exact explained_token
  · exact explained_token

theorem explained_quoted {opening : List Char} {tail : StringSplit} {fault : LexicalCause}
    {kind : List Char → TokenKind} (h : Faulty [] (opening ++ tail.taken) fault) :
    Explained (quoted opening tail fault kind) := by
  intro cause hcause
  unfold quoted at hcause ⊢
  split at hcause
  · cases hcause
  · cases hcause
    exact h

theorem explained_string (rest : List Char) : Explained (string rest) := by
  unfold string
  split
  · exact explained_quoted .blockString
  · exact explained_quoted .string

theorem explained_dots (rest : List Char) : Explained (dots rest) := by
  unfold dots
  split <;> exact explained_token

theorem explained_startingWith (c : Char) (rest : List Char) : Explained (startingWith c rest) := by
  fun_cases startingWith c rest with
  | case1 => exact explained_token
  | case2 => exact explained_token
  | case3 => exact explained_dots rest
  | case4 => exact explained_string rest
  | case5 => exact explained_word
  | case6 => exact explained_word
  | case7 => exact explained_signed
  | case8 => exact explained_signed
  | case9 =>
    rintro _ ⟨⟩
    exact .character

theorem explained_front (cs : List Char) : Explained (front cs) := by
  cases cs with
  | nil => exact explained_token
  | cons c rest => exact explained_startingWith c rest

end Scan

/-- What stands in front of characters at fault is ignored, up to a word that they spoil. -/
theorem exists_faulty_of_scan {cs : List Char} {cause : LexicalCause}
    (h : (scan cs).reading = .error cause) :
    ∃ word, (scan cs).gap = cs.takeWhile isIgnored ++ word ∧ Faulty word (scan cs).lexeme cause :=
  ⟨_, rfl, Scan.explained_front (cs.dropWhile isIgnored) cause h⟩

/-! ## What a token says about the text -/

/-- What may stand in front of a token: characters that are ignored, and in front of one that runs
into a name or number also that name or number. -/
def TokenKind.FitsBehind (gap : List Char) : TokenKind → Prop
  | .fault (.invalidAdjacency after _) _ _ =>
    ∃ ignored, (∀ c ∈ ignored, isIgnored c = true) ∧ gap = ignored ++ after.toList
  | _ => ∀ c ∈ gap, isIgnored c = true

/-- How the characters that a token covers tell the token. -/
def TokenKind.WrittenAs (cs : List Char) : TokenKind → Prop
  | .integer text => text = String.ofList (Integer.canonical cs)
  | .blockString text => text = String.ofList (Text.normalizeBreaks cs)
  | .endOfText => cs = []
  | .fault (.invalidAdjacency _ found) _ _ => cs = [found]
  | .fault (.unexpectedCharacter found) _ _ => cs = [found]
  | .fault .unterminatedString _ _ => ['"'] <+: cs
  | .fault .unterminatedBlockString _ _ => ['"', '"', '"'] <+: cs
  | kind => cs = kind.text.toList

theorem Spells.writtenAs {lexeme : List Char} {kind : TokenKind} (h : Spells lexeme kind) :
    kind.WrittenAs lexeme := by
  cases h with
  | mark h => exact (Punctuator.text_ofChar? h).symm
  | comment => exact String.toList_ofList.symm
  | @word c cs hc hcs =>
    have htext := congrArg String.toList (text_nameKind (String.ofList (c :: cs)))
    rw [String.toList_ofList] at htext
    unfold Scan.nameKind at htext ⊢
    split at htext <;> exact htext.symm
  | float => exact String.toList_ofList.symm
  | string => exact String.toList_ofList.symm
  | _ => rfl

theorem TokenKind.endsBefore_nil (kind : TokenKind) : kind.EndsBefore [] := by
  unfold TokenKind.EndsBefore
  split <;> first | trivial | rintro _ ⟨⟩

/-- A token is read from its lexeme alone. -/
theorem Spells.reading {lexeme : List Char} {kind : TokenKind} (h : Spells lexeme kind) :
    (scan lexeme).reading = .ok kind := by
  have hscan := scan_append_rest h kind.endsBefore_nil
  rw [List.append_nil] at hscan
  rw [hscan]
  rfl

/-- A token is read first if what stands behind it does not run into it. -/
theorem Spells.exists_tokensFrom_append {lexeme rest : List Char} {kind : TokenKind}
    (h : Spells lexeme kind) (hrest : kind.EndsBefore rest) (file : String) (tracker : Tracker) :
    ∃ token, token.kind = kind ∧ tokensFrom file tracker (lexeme ++ rest) =
      token :: tokensFrom file (tracker.advance lexeme) rest := by
  have hscan := scan_append_rest h hrest
  have hne : lexeme ≠ [] := by
    intro hnil
    have hreading := h.reading
    rw [hnil] at hreading
    exact h.ne_endOfText (Except.ok.inj hreading).symm
  rw [tokensFrom_eq, hscan, if_neg (by exact hne)]
  exact ⟨_, rfl, rfl⟩

theorem kinds_tokensFrom_append {lexeme rest : List Char} {kind : TokenKind}
    (h : Spells lexeme kind) (hrest : kind.EndsBefore rest) (file : String) (tracker : Tracker) :
    (tokensFrom file tracker (lexeme ++ rest)).map Token.kind =
      kind :: (tokensFrom file (tracker.advance lexeme) rest).map Token.kind := by
  obtain ⟨token, rfl, htokens⟩ := h.exists_tokensFrom_append hrest file tracker
  rw [htokens, List.map_cons]

/-- A text that spells a token has no other token. -/
theorem Spells.kinds_ofText {text : String} {kind : TokenKind} (h : Spells text.toList kind)
    (file : String) : (Token.ofText file text).map Token.kind = [kind, .endOfText] := by
  have htokens := kinds_tokensFrom_append h kind.endsBefore_nil file .start
  rw [List.append_nil] at htokens
  rw [Token.ofText, htokens, tokensFrom_eq]
  rfl

theorem Spells.isProper {lexeme : List Char} {kind : TokenKind} (h : Spells lexeme kind) :
    kind.isProper = true := by
  cases h with
  | word =>
    unfold Scan.nameKind
    split <;> rfl
  | _ => rfl

theorem TokenKind.fitsBehind_of_isProper {gap : List Char} {kind : TokenKind}
    (h : kind.isProper = true) (hgap : ∀ c ∈ gap, isIgnored c = true) : kind.FitsBehind gap := by
  unfold TokenKind.FitsBehind
  split
  · cases h
  · exact hgap

/-! ## One token -/

section Scan

variable {cs : List Char}

theorem scan_endOfText_or_spells {kind : TokenKind} (h : (scan cs).reading = .ok kind) :
    (scan cs).lexeme = [] ∧ kind = .endOfText ∨ Spells (scan cs).lexeme kind := by
  by_cases hne : (scan cs).lexeme = []
  · exact .inl ⟨hne, Except.ok.inj (h.symm.trans (scan_of_lexeme_eq_nil hne).1)⟩
  · exact .inr (spells_of_scan h hne)

variable (cs) (span : Span)

/-- A token fits behind the gap that it is found behind. -/
theorem fitsBehind_gap : ((scan cs).kindAt span).FitsBehind (scan cs).gap := by
  unfold Scan.kindAt
  cases h : (scan cs).reading with
  | ok kind =>
    refine TokenKind.fitsBehind_of_isProper ?_ (isIgnored_of_mem_gap h)
    rcases scan_endOfText_or_spells h with ⟨-, rfl⟩ | hspells
    · rfl
    · exact hspells.isProper
  | error cause =>
    obtain ⟨word, hgap, hfaulty⟩ := exists_faulty_of_scan h
    have hignored : ∀ c ∈ cs.takeWhile isIgnored, isIgnored c = true := forall_mem_takeWhile
    rw [hgap]
    generalize (scan cs).lexeme = lexeme at hfaulty
    cases hfaulty with
    | adjacency => exact ⟨_, hignored, by rw [String.toList_ofList]⟩
    | _ => exact (List.append_nil _).symm ▸ hignored

/-- The characters of a token tell which it is. -/
theorem writtenAs_lexeme : ((scan cs).kindAt span).WrittenAs (scan cs).lexeme := by
  unfold Scan.kindAt
  cases h : (scan cs).reading with
  | ok kind =>
    rcases scan_endOfText_or_spells h with ⟨hnil, rfl⟩ | hspells
    · exact hnil
    · exact hspells.writtenAs
  | error cause =>
    obtain ⟨word, -, hfaulty⟩ := exists_faulty_of_scan h
    generalize (scan cs).lexeme = lexeme at hfaulty ⊢
    cases hfaulty with
    | character => rfl
    | adjacency => rfl
    | string => exact List.prefix_append ['"'] _
    | blockString => exact List.prefix_append ['"', '"', '"'] _

theorem reading_lexeme (h : ((scan cs).kindAt span).isProper = true) :
    (scan (scan cs).lexeme).reading = .ok ((scan cs).kindAt span) := by
  obtain ⟨kind, hreading, hkind⟩ := exists_reading_of_isProper h
  rw [hkind]
  rcases scan_endOfText_or_spells hreading with ⟨hnil, rfl⟩ | hspells
  · rw [hnil]
    rfl
  · exact hspells.reading

theorem kindAt_eq_endOfText_iff :
    (scan cs).kindAt span = .endOfText ↔ (scan cs).lexeme = [] := by
  constructor
  · intro h
    obtain ⟨kind, hreading, hkind⟩ := @exists_reading_of_isProper cs span (by rw [h]; rfl)
    rcases scan_endOfText_or_spells hreading with ⟨hnil, -⟩ | hspells
    · exact hnil
    · exact absurd (hkind.symm.trans h) hspells.ne_endOfText
  · intro h
    rw [Scan.kindAt, (scan_of_lexeme_eq_nil h).1]

end Scan

/-! ## All tokens -/

/-- Tokens that tile a text from an offset on, the last of them its end. Each stands behind the one
before it with no more than a gap between them, and the characters it covers tell which it is. -/
inductive Tiles (cs : List Char) : Nat → List Token → Prop
  | last {offset : Nat} {token : Token} (hkind : token.kind = .endOfText)
      (hstart : offset ≤ token.span.start.offset) (hempty : token.span.stop = token.span.start)
      (hend : token.span.stop.offset = cs.length)
      (hgap : token.kind.FitsBehind (cs.extract offset token.span.start.offset)) :
      Tiles cs offset [token]
  | next {offset : Nat} {token : Token} {tokens : List Token} (hkind : token.kind ≠ .endOfText)
      (hstart : offset ≤ token.span.start.offset)
      (hstop : token.span.start.offset < token.span.stop.offset)
      (hgap : token.kind.FitsBehind (cs.extract offset token.span.start.offset))
      (hwritten :
        token.kind.WrittenAs (cs.extract token.span.start.offset token.span.stop.offset))
      (hreading : token.kind.isProper = true →
        (scan (cs.extract token.span.start.offset token.span.stop.offset)).reading =
          .ok token.kind)
      (hrest : Tiles cs token.span.stop.offset tokens) :
      Tiles cs offset (token :: tokens)

theorem extract_append_append (before part after : List Char) :
    (before ++ part ++ after).extract before.length (before.length + part.length) = part := by
  simp [List.extract_eq_take_drop]

theorem append_scan (before cs : List Char) :
    before ++ (scan cs).gap ++ (scan cs).lexeme ++ (scan cs).rest = before ++ cs := by
  calc before ++ (scan cs).gap ++ (scan cs).lexeme ++ (scan cs).rest
      = before ++ ((scan cs).gap ++ (scan cs).lexeme ++ (scan cs).rest) := by
        simp only [List.append_assoc]
    _ = before ++ cs := by rw [scan_append]

/-- Where the first token of the rest of a text stands, and what stands in front of it and under
it. -/
theorem extract_scanSpan {file : String} {tracker : Tracker} {before cs : List Char}
    (h : tracker.position.offset = before.length) :
    let span := scanSpan file tracker cs
    span.start.offset = before.length + (scan cs).gap.length ∧
      span.stop.offset = span.start.offset + (scan cs).lexeme.length ∧
      (before ++ cs).extract before.length span.start.offset = (scan cs).gap ∧
      (before ++ cs).extract span.start.offset span.stop.offset = (scan cs).lexeme := by
  intro span
  have hstart : span.start.offset = before.length + (scan cs).gap.length := by
    rw [← h]
    exact Tracker.advance_offset ..
  have hstop : span.stop.offset = span.start.offset + (scan cs).lexeme.length :=
    Tracker.advance_offset ..
  have hgap := extract_append_append before (scan cs).gap ((scan cs).lexeme ++ (scan cs).rest)
  have hlexeme := extract_append_append (before ++ (scan cs).gap) (scan cs).lexeme (scan cs).rest
  rw [← hstart, ← List.append_assoc, append_scan] at hgap
  rw [List.length_append, ← hstart, ← hstop, append_scan] at hlexeme
  exact ⟨hstart, hstop, hgap, hlexeme⟩

/-- Tokens that are found behind some characters of a text tile the rest of it. -/
theorem tiles_tokensFrom {file : String} {tracker : Tracker} {before cs : List Char}
    (h : tracker.position.offset = before.length) :
    Tiles (before ++ cs) before.length (tokensFrom file tracker cs) := by
  obtain ⟨hstart, hstop, hgap, hlexeme⟩ := @extract_scanSpan file _ _ cs h
  rw [tokensFrom_eq]
  split
  · next hnil =>
    have hlength := congrArg List.length (scan_append cs)
    rw [(scan_of_lexeme_eq_nil hnil).2, hnil] at hlength
    refine .last ((kindAt_eq_endOfText_iff cs _).2 hnil) (by simp [hstart]) ?_ ?_ ?_
    · simp [scanSpan, hnil]
    · simp only [hstop, hstart, hnil, List.length_append, List.length_nil] at hlength ⊢
      omega
    · exact hgap ▸ fitsBehind_gap cs _
  · next hne =>
    have hpos := List.length_pos_iff.2 hne
    -- What is behind this token is behind the characters in front of it, its gap and its own.
    have hrest := @tiles_tokensFrom file ((tracker.advance (scan cs).gap).advance (scan cs).lexeme)
      (before ++ (scan cs).gap ++ (scan cs).lexeme) (scan cs).rest
      (by simp only [Tracker.advance_offset, h, List.length_append])
    have hoffset : (before ++ (scan cs).gap ++ (scan cs).lexeme).length =
        (scanSpan file tracker cs).stop.offset := by
      simp only [hstop, hstart, List.length_append]
    rw [append_scan, hoffset] at hrest
    refine .next (fun hkind => hne ((kindAt_eq_endOfText_iff cs _).1 hkind)) (by simp [hstart]) ?_
      ?_ ?_ ?_ hrest
    · simp only [hstop]
      omega
    · exact hgap ▸ fitsBehind_gap cs _
    · exact hlexeme ▸ writtenAs_lexeme cs _
    · exact hlexeme ▸ reading_lexeme cs _
termination_by cs.length
decreasing_by exact scan_rest_lt ‹_›

/-- **The tokens of a text tile it**, and only the last is the end of the text. -/
theorem tiles_ofText (file text : String) :
    Tiles text.toList 0 (Token.ofText file text) ∧
      ∃ tokens last, Token.ofText file text = tokens ++ [last] ∧ last.kind = .endOfText ∧
        ∀ token ∈ tokens, token.kind ≠ .endOfText :=
  ⟨@tiles_tokensFrom file .start [] text.toList rfl, exists_tokensFrom_eq_concat ..⟩

end SchemaMerge
