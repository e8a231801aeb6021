import SchemaMerge.Proofs.Token.Genuine

/-!
# Tokens of texts with line breaks of any style

All the scanner sees of a line break is that it is one: it ends words, strings and comments, it may
stand in gaps and in block strings, and a block string keeps it as a line feed anyway. So scanning a
text with line feeds for its line breaks gives the scan of the text with line feeds for its line
breaks (`scan_normalizeBreaks`).

No token ends inside a break, between a carriage return and its line feed (`unsplit_scan`). So two
trackers stay alongside from token to token, and the tokens differ in nothing but their offsets
(`tokensFrom_normalizeBreaks`).
-/

namespace SchemaMerge

/-! ## Numbers -/

namespace NumberSplit

/-- The split of the text with line feeds for line breaks. There are none in a number. -/
def normalizeBreaks (split : NumberSplit) : NumberSplit :=
  { split with rest := Text.normalizeBreaks split.rest }

/-- Digits end in front of a break, whatever its style. -/
theorem takeWhile_isDigit_normalizeBreaks (cs : List Char) :
    (Text.normalizeBreaks cs).takeWhile Char.isDigit = cs.takeWhile Char.isDigit ∧
      (Text.normalizeBreaks cs).dropWhile Char.isDigit =
        Text.normalizeBreaks (cs.dropWhile Char.isDigit) :=
  Text.takeWhile_normalizeBreaks_of_not_break rfl rfl cs

/-- There are no breaks in a fraction. -/
theorem fraction_normalizeBreaks (cs : List Char) :
    fraction (Text.normalizeBreaks cs) = (fraction cs).normalizeBreaks := by
  have hfront := Text.front_normalizeBreaks cs
  generalize hds : Text.normalizeBreaks cs = ds at hfront ⊢
  cases hfront with
  | nil => rfl
  | lineBreak hb =>
    rcases hb with rfl | rfl <;> simp [fraction, normalizeBreaks, hds]
  | @char c cs hc =>
    by_cases hdot : c = '.'
    · subst hdot
      obtain ⟨htake, hdrop⟩ := takeWhile_isDigit_normalizeBreaks cs
      have hfront := Text.front_normalizeBreaks cs
      generalize hes : Text.normalizeBreaks cs = es at hfront htake hdrop hds ⊢
      cases hfront with
      | nil => rfl
      | lineBreak hb =>
        rcases hb with rfl | rfl <;> simp [fraction, normalizeBreaks, hds]
      | @char d cs hd =>
        simp only [fraction, htake, hdrop]
        split <;> simp [normalizeBreaks, hds]
    · simp [fraction, normalizeBreaks, hdot, hds]

theorem exponentDigits_normalizeBreaks (mark digits cs : List Char) :
    exponentDigits mark (Text.normalizeBreaks digits) (Text.normalizeBreaks cs) =
      (exponentDigits mark digits cs).normalizeBreaks := by
  obtain ⟨htake, hdrop⟩ := takeWhile_isDigit_normalizeBreaks digits
  have hfront := Text.front_normalizeBreaks digits
  generalize Text.normalizeBreaks digits = ds at hfront htake hdrop ⊢
  cases hfront with
  | nil => rfl
  | lineBreak hb =>
    rcases hb with rfl | rfl <;> simp [exponentDigits, normalizeBreaks]
  | char hd =>
    simp only [exponentDigits, htake, hdrop]
    split <;> rfl

/-- There are none in an exponent. -/
theorem exponent_normalizeBreaks (cs : List Char) :
    exponent (Text.normalizeBreaks cs) = (exponent cs).normalizeBreaks := by
  have hfront := Text.front_normalizeBreaks cs
  generalize hds : Text.normalizeBreaks cs = ds at hfront ⊢
  cases hfront with
  | nil => rfl
  | lineBreak hb =>
    rcases hb with rfl | rfl <;> simp [exponent, normalizeBreaks, hds]
  | @char e cs he =>
    have hplain := exponentDigits_normalizeBreaks [e] cs (e :: cs)
    simp only [exponent]
    split
    · have hfront := Text.front_normalizeBreaks cs
      generalize hes : Text.normalizeBreaks cs = es at hfront hds hplain ⊢
      rw [hds] at hplain
      cases hfront with
      | nil => simp [normalizeBreaks, hds]
      | lineBreak hb =>
        rcases hb with rfl | rfl <;> simpa using hplain
      | @char s digits hs =>
        have hsigned := exponentDigits_normalizeBreaks [e, s] digits (e :: s :: digits)
        rw [hds] at hsigned
        dsimp only
        split
        · exact hsigned
        · exact hplain
    · simp [normalizeBreaks, hds]

/-- Numbers are read alike, and what is behind them is normalized. -/
theorem unsigned_normalizeBreaks (sign cs : List Char) :
    unsigned sign (Text.normalizeBreaks cs) = (unsigned sign cs).normalizeBreaks := by
  obtain ⟨htake, hdrop⟩ := takeWhile_isDigit_normalizeBreaks cs
  simp only [unsigned, htake, hdrop, fraction_normalizeBreaks, normalizeBreaks,
    exponent_normalizeBreaks]

end NumberSplit

/-! ## Strings -/

/-- The split of the text with line feeds for line breaks. -/
def StringSplit.normalizeBreaks (split : StringSplit) : StringSplit where
  taken := Text.normalizeBreaks split.taken
  closed := split.closed
  rest := Text.normalizeBreaks split.rest

theorem StringSplit.normalizeBreaks_extend {front : List Char} (h : '\r' ∉ front)
    (split : StringSplit) :
    (split.extend front).normalizeBreaks = split.normalizeBreaks.extend front := by
  simp only [normalizeBreaks, extend, Text.normalizeBreaks_append_of_not_mem h]

/-- A string ends in front of the first break, so it is read alike. -/
theorem stringTail_normalizeBreaks (cs : List Char) :
    stringTail (Text.normalizeBreaks cs) = (stringTail cs).normalizeBreaks := by
  fun_induction stringTail cs with
  | case1 => rfl
  | case2 rest =>
    rw [Text.normalizeBreaks_cons_of_ne (by decide), stringTail]
    rfl
  | case3 c rest hbreak =>
    obtain ⟨rest', hrest⟩ := Text.exists_normalizeBreaks_of_isBreak hbreak rest
    rw [Text.normalizeBreaks_cons_of_ne (by decide), hrest, stringTail, if_pos (by decide),
      StringSplit.normalizeBreaks, hrest]
    rfl
  | case4 c rest hbreak ih =>
    have hreturn := Text.return_ne_of_not_isBreak hbreak
    rw [Text.normalizeBreaks_cons_of_ne (by decide), Text.normalizeBreaks_cons_of_ne hreturn.symm,
      stringTail, if_neg hbreak, ih, StringSplit.normalizeBreaks_extend]
    simp [hreturn]
  | case5 c rest hclose hescape hbreak =>
    obtain ⟨rest', hrest⟩ := Text.exists_normalizeBreaks_of_isBreak hbreak rest
    rw [hrest, stringTail, if_pos (by decide), StringSplit.normalizeBreaks, hrest]
    · rfl
    · simp
    · simp
  | case6 c rest hclose hescape hbreak ih =>
    have hreturn := Text.return_ne_of_not_isBreak hbreak
    have hlast (d : Char) (ds : List Char) (hc : c = '\\') :
        Text.normalizeBreaks rest ≠ d :: ds := by
      cases rest with
      | nil => simp [Text.normalizeBreaks]
      | cons e rest => exact absurd rfl (hescape e rest hc)
    rw [Text.normalizeBreaks_cons_of_ne hreturn.symm, stringTail, if_neg hbreak, ih,
      StringSplit.normalizeBreaks_extend]
    · simp [hreturn]
    · exact hclose
    · exact hlast

theorem return_not_mem_stringTail (cs : List Char) : '\r' ∉ (stringTail cs).taken := by
  fun_induction stringTail cs with
  | case1 => exact List.not_mem_nil
  | case2 => simp
  | case3 => simp
  | case4 c rest hbreak ih =>
    simp [StringSplit.extend, Text.return_ne_of_not_isBreak hbreak, ih]
  | case5 => exact List.not_mem_nil
  | case6 c rest hclose hescape hbreak ih =>
    simp [StringSplit.extend, Text.return_ne_of_not_isBreak hbreak, ih]

/-- A block string may hold breaks, which are normalized with it. -/
theorem blockTail_normalizeBreaks (cs : List Char) :
    blockTail (Text.normalizeBreaks cs) = (blockTail cs).normalizeBreaks := by
  fun_induction blockTail cs with
  | case1 => rfl
  | case2 rest ih =>
    have hfront := @Text.normalizeBreaks_append_of_not_mem ['\\', '"', '"', '"'] (by decide) rest
    simp only [List.cons_append, List.nil_append] at hfront
    rw [hfront, blockTail, ih, StringSplit.normalizeBreaks_extend]
    decide
  | case3 rest =>
    have hfront := @Text.normalizeBreaks_append_of_not_mem ['"', '"', '"'] (by decide) rest
    simp only [List.cons_append, List.nil_append] at hfront
    rw [hfront, blockTail]
    rfl
  | case4 c rest hescape hclose ih =>
    by_cases hpair : c = '\r' ∧ rest.head? = some '\n'
    · obtain ⟨rfl, hrest⟩ := hpair
      obtain ⟨rest, rfl⟩ := List.head?_eq_some_iff.1 hrest
      have htaken : (blockTail ('\n' :: rest)).taken = '\n' :: (blockTail rest).taken := by
        rw [blockTail_cons (by simp) (by simp)]
        rfl
      rw [Text.normalizeBreaks_return_feed, ih]
      simp only [StringSplit.normalizeBreaks, StringSplit.extend, htaken, List.singleton_append,
        Text.normalizeBreaks_return_feed]
    · rw [not_and] at hpair
      have htaken : c = '\r' → (blockTail rest).taken.head? ≠ some '\n' := fun hc ht => by
        refine hpair hc ?_
        rw [← blockTail_append rest, List.head?_append, ht, Option.some_or]
      rw [Text.normalizeBreaks_cons hpair, blockTail_cons, ih]
      · simp only [StringSplit.normalizeBreaks, StringSplit.extend, List.singleton_append,
          Text.normalizeBreaks_cons htaken]
      · rintro ⟨hc, hq⟩
        obtain ⟨ds, rfl⟩ := Text.prefix_of_normalizeBreaks rfl hq
        exact hescape ds (Text.eq_of_normalized_eq hc rfl) rfl
      · rintro ⟨hc, hq⟩
        obtain ⟨ds, rfl⟩ := Text.prefix_of_normalizeBreaks rfl hq
        exact hclose ds (Text.eq_of_normalized_eq hc rfl) rfl

/-! ## One token -/

namespace Scan

/-- The scan of the text with line feeds for line breaks, for the same token. -/
def normalizeBreaks (scan : Scan) : Scan where
  gap := Text.normalizeBreaks scan.gap
  lexeme := Text.normalizeBreaks scan.lexeme
  rest := Text.normalizeBreaks scan.rest
  reading := scan.reading

theorem token_normalizeBreaks {lexeme : List Char} (h : '\r' ∉ lexeme) (rest : List Char)
    (kind : TokenKind) :
    token lexeme (Text.normalizeBreaks rest) kind = (token lexeme rest kind).normalizeBreaks := by
  simp only [token, normalizeBreaks, Text.normalizeBreaks_eq_self h]
  rfl

theorem word_normalizeBreaks {lexeme : List Char} (h : '\r' ∉ lexeme) (rest : List Char)
    (kind : TokenKind) :
    word lexeme (Text.normalizeBreaks rest) kind = (word lexeme rest kind).normalizeBreaks := by
  have hfront := Text.front_normalizeBreaks rest
  generalize hds : Text.normalizeBreaks rest = ds at hfront ⊢
  cases hfront with
  | nil => exact token_normalizeBreaks h [] kind
  | @lineBreak b cs rest hb =>
    have hends : endsWord b = true := by rcases hb with rfl | rfl <;> rfl
    rw [word, word, if_pos (by decide), if_pos hends, ← token_normalizeBreaks h, hds]
  | @char c cs hc =>
    by_cases hends : endsWord c = true
    · rw [word, word, if_pos hends, if_pos hends, ← token_normalizeBreaks h, hds]
    · have hreturn : '\r' ∉ [c] :=
        mt List.mem_singleton.1 (Text.return_ne_of_not_isBreak (Bool.eq_false_iff.1 hc))
      rw [word, word, if_neg hends, if_neg hends, normalizeBreaks,
        Text.normalizeBreaks_eq_self h, Text.normalizeBreaks_eq_self hreturn]

theorem number_normalizeBreaks {sign : List Char} (h : '\r' ∉ sign) (cs : List Char) :
    number sign (Text.normalizeBreaks cs) = (number sign cs).normalizeBreaks := by
  have hdigits : '\r' ∉ (NumberSplit.unsigned sign cs).digits := by
    have happend := NumberSplit.unsigned_append sign (Text.normalizeBreaks cs)
    rw [NumberSplit.unsigned_normalizeBreaks] at happend
    have hall : '\r' ∉ sign ++ Text.normalizeBreaks cs := by
      simp [h, Text.return_not_mem_normalizeBreaks]
    rw [← happend] at hall
    exact fun hmem => hall (List.mem_append_left _ hmem)
  rw [number, NumberSplit.unsigned_normalizeBreaks]
  exact word_normalizeBreaks hdigits _ _

/-- A quoted text is read alike if its token is the same after normalizing. -/
theorem quoted_normalizeBreaks {opening : List Char} (h : '\r' ∉ opening) (tail : StringSplit)
    (fault : LexicalCause) {kind : List Char → TokenKind}
    (hkind : kind (opening ++ Text.normalizeBreaks tail.taken) = kind (opening ++ tail.taken)) :
    quoted opening tail.normalizeBreaks fault kind =
      (quoted opening tail fault kind).normalizeBreaks := by
  simp only [quoted, normalizeBreaks, StringSplit.normalizeBreaks,
    Text.normalizeBreaks_append_of_not_mem h, hkind]
  rfl

theorem string_normalizeBreaks (rest : List Char) :
    string (Text.normalizeBreaks rest) = (string rest).normalizeBreaks := by
  fun_cases string rest with
  | case1 rest =>
    rw [Text.normalizeBreaks_cons_of_ne (by decide), Text.normalizeBreaks_cons_of_ne (by decide),
      string, blockTail_normalizeBreaks]
    refine quoted_normalizeBreaks (by decide) _ _ ?_
    rw [Text.normalizeBreaks_append_of_not_mem (by decide),
      Text.normalizeBreaks_append_of_not_mem (by decide), Text.normalizeBreaks_normalizeBreaks]
  | case2 rest hblock =>
    have hplain (ds : List Char) (h : Text.normalizeBreaks rest = '"' :: '"' :: ds) : False := by
      obtain ⟨es, rfl⟩ := @Text.prefix_of_normalizeBreaks ['"', '"'] rest rfl ⟨ds, h.symm⟩
      exact hblock es rfl
    rw [string, stringTail_normalizeBreaks]
    · refine quoted_normalizeBreaks (by decide) _ _ ?_
      rw [Text.normalizeBreaks_eq_self (return_not_mem_stringTail rest)]
    · exact hplain

theorem dots_normalizeBreaks (rest : List Char) :
    dots (Text.normalizeBreaks rest) = (dots rest).normalizeBreaks := by
  fun_cases dots rest with
  | case1 rest =>
    rw [Text.normalizeBreaks_cons_of_ne (by decide), Text.normalizeBreaks_cons_of_ne (by decide),
      dots]
    exact token_normalizeBreaks (by decide) _ _
  | case2 rest hellipsis =>
    have hplain (ds : List Char) (h : Text.normalizeBreaks rest = '.' :: '.' :: ds) : False := by
      obtain ⟨es, rfl⟩ := @Text.prefix_of_normalizeBreaks ['.', '.'] rest rfl ⟨ds, h.symm⟩
      exact hellipsis es rfl
    rw [dots]
    · exact token_normalizeBreaks (by decide) _ _
    · exact hplain

theorem signed_normalizeBreaks {sign : Char} (h : sign ≠ '\r') (mark : Punctuator)
    (rest : List Char) :
    signed sign mark (Text.normalizeBreaks rest) = (signed sign mark rest).normalizeBreaks := by
  have hsign : '\r' ∉ [sign] := by simp [Ne.symm h]
  have hnumber := number_normalizeBreaks hsign rest
  have hmark := token_normalizeBreaks hsign rest (.punctuator mark)
  have hfront := Text.front_normalizeBreaks rest
  generalize Text.normalizeBreaks rest = ds at hfront hnumber hmark ⊢
  cases hfront with
  | nil => exact hmark
  | lineBreak hb =>
    rcases hb with rfl | rfl <;> exact hmark
  | @char d cs hd =>
    simp only [signed]
    split
    · exact hnumber
    · exact hmark

theorem comment_normalizeBreaks (rest : List Char) :
    comment (Text.normalizeBreaks rest) = (comment rest).normalizeBreaks := by
  obtain ⟨htake, hdrop⟩ := @Text.takeWhile_normalizeBreaks_of_not_break
    (fun c => !Text.isBreak c) rfl rfl rest
  simp only [comment, htake, hdrop]
  refine token_normalizeBreaks ?_ _ _
  simpa using Text.return_not_mem_takeWhile rfl rest

theorem name_normalizeBreaks {first : Char} (h : isNameStart first = true) (rest : List Char) :
    name first (Text.normalizeBreaks rest) = (name first rest).normalizeBreaks := by
  obtain ⟨htake, hdrop⟩ := @Text.takeWhile_normalizeBreaks_of_not_break isNamePart rfl rfl rest
  simp only [name, htake, hdrop]
  refine word_normalizeBreaks ?_ _ _
  have hfirst : first ≠ '\r' := by
    rintro rfl
    cases h
  simpa [Ne.symm hfirst] using Text.return_not_mem_takeWhile rfl rest

/-- Each rule for a first character reads alike, since no token starts with a carriage return. -/
theorem startingWith_normalizeBreaks {c : Char} (h : c ≠ '\r') (rest : List Char) :
    startingWith c (Text.normalizeBreaks rest) = (startingWith c rest).normalizeBreaks := by
  have hc : '\r' ∉ [c] := by simp [Ne.symm h]
  unfold startingWith
  cases Punctuator.ofChar? c with
  | some mark => exact token_normalizeBreaks hc _ _
  | none =>
    simp only
    split_ifs with hcomment hdot hquote hname hdigit hminus hplus
    · exact comment_normalizeBreaks rest
    · exact dots_normalizeBreaks rest
    · exact string_normalizeBreaks rest
    · exact name_normalizeBreaks hname rest
    · rw [← Text.normalizeBreaks_cons_of_ne h, number_normalizeBreaks List.not_mem_nil]
    · exact signed_normalizeBreaks (by decide) _ _
    · exact signed_normalizeBreaks (by decide) _ _
    · rw [normalizeBreaks, Text.normalizeBreaks_eq_self hc]
      rfl

theorem front_normalizeBreaks {cs : List Char} (h : HeadIn (fun c => !isIgnored c) cs) :
    front (Text.normalizeBreaks cs) = (front cs).normalizeBreaks := by
  cases cs with
  | nil => rfl
  | cons c cs =>
    have hc : c ≠ '\r' := by
      rintro rfl
      exact absurd (h _ rfl) (by decide)
    rw [Text.normalizeBreaks_cons_of_ne hc]
    exact startingWith_normalizeBreaks hc cs

end Scan

/-- **The first token of a text does not depend on how its lines are broken.** -/
theorem scan_normalizeBreaks (cs : List Char) :
    scan (Text.normalizeBreaks cs) = (scan cs).normalizeBreaks := by
  obtain ⟨htake, hdrop⟩ := @Text.takeWhile_normalizeBreaks isIgnored rfl cs
  have hhead := headIn_dropWhile isIgnored cs
  have hunsplit : Text.Unsplit (cs.takeWhile isIgnored)
      (Scan.front (cs.dropWhile isIgnored)).gap := fun _ hgap => by
    refine absurd (hhead '\n' ?_) (by decide)
    rw [← Scan.all_front (cs.dropWhile isIgnored), Scan.all, List.append_assoc, List.head?_append,
      hgap]
    rfl
  simp only [scan, htake, hdrop, Scan.front_normalizeBreaks hhead, Scan.normalizeBreaks,
    Text.normalizeBreaks_append hunsplit]

/-! ## Tokens without offsets -/

/-- The span without the offsets of its positions. -/
def Span.withoutOffsets (span : Span) : Span :=
  ⟨span.file, span.start.withoutOffset, span.stop.withoutOffset⟩

/-- The note without the offsets in its span. -/
def Note.withoutOffsets (note : Note) : Note :=
  { note with span := note.span.map Span.withoutOffsets }

/-- The kind, without the offsets in the notes of a fault. -/
def TokenKind.withoutOffsets : TokenKind → TokenKind
  | .fault cause message notes => .fault cause message (notes.map Note.withoutOffsets)
  | kind => kind

/-- The token without the offsets in its spans. -/
def Token.withoutOffsets (token : Token) : Token :=
  ⟨token.kind.withoutOffsets, token.span.withoutOffsets⟩

/-- The kind of a token depends on its place only in the report of a fault. -/
theorem Scan.withoutOffsets_kindAt (scan : Scan) {span span' : Span}
    (hspan : span.withoutOffsets = span'.withoutOffsets) :
    (scan.kindAt span).withoutOffsets = (scan.kindAt span').withoutOffsets := by
  have hnotes (cause : LexicalCause) : (cause.notes span).map Note.withoutOffsets =
      (cause.notes span').map Note.withoutOffsets := by
    cases cause <;> simp [LexicalCause.notes, Note.about, Note.withoutOffsets, hspan]
  unfold Scan.kindAt
  split
  · rfl
  · simp only [TokenKind.withoutOffsets, hnotes]

theorem Scan.withoutOffsets_token (scan : Scan) {span span' : Span}
    (hspan : span.withoutOffsets = span'.withoutOffsets) :
    Token.withoutOffsets ⟨scan.kindAt span, span⟩ =
      Token.withoutOffsets ⟨scan.kindAt span', span'⟩ := by
  simp only [Token.withoutOffsets, withoutOffsets_kindAt scan hspan, hspan]

/-- No seam between a gap, a token and the rest splits a line break. -/
theorem unsplit_scan (cs : List Char) :
    Text.Unsplit (scan cs).gap ((scan cs).lexeme ++ (scan cs).rest) ∧
      Text.Unsplit (scan cs).lexeme (scan cs).rest := by
  have happend := scan_append (Text.normalizeBreaks cs)
  rw [scan_normalizeBreaks] at happend
  refine Text.unsplit_of_normalizeBreaks_append ?_
  rw [scan_append cs]
  exact happend.symm

section

variable {file : String} {tracker plain : Tracker} {cs : List Char}

/-- Both trackers stay alongside over the gap. -/
theorem Tracker.Alongside.gap (h : tracker.Alongside plain cs) :
    (tracker.advance (scan cs).gap).Alongside
      (plain.advance (Text.normalizeBreaks (scan cs).gap))
      ((scan cs).lexeme ++ (scan cs).rest) := by
  refine Alongside.advance ?_ (unsplit_scan cs).1
  rwa [← List.append_assoc, scan_append]

/-- They stay alongside over the lexeme, since no break is split at its end. -/
theorem Tracker.Alongside.lexeme (h : tracker.Alongside plain cs) :
    ((tracker.advance (scan cs).gap).advance (scan cs).lexeme).Alongside
      ((plain.advance (Text.normalizeBreaks (scan cs).gap)).advance
        (Text.normalizeBreaks (scan cs).lexeme))
      (scan cs).rest :=
  h.gap.advance (unsplit_scan cs).2

/-- The next token has the same lines and columns in the normalized text. -/
theorem withoutOffsets_scanSpan (h : tracker.Alongside plain cs) :
    (scanSpan file plain (Text.normalizeBreaks cs)).withoutOffsets =
      (scanSpan file tracker cs).withoutOffsets := by
  simp only [scanSpan, scan_normalizeBreaks, Scan.normalizeBreaks, Span.withoutOffsets,
    h.gap.position, h.lexeme.position]

theorem tokensFrom_normalizeBreaks_eq (file : String) (plain : Tracker) (cs : List Char) :
    tokensFrom file plain (Text.normalizeBreaks cs) =
      ⟨(scan cs).kindAt (scanSpan file plain (Text.normalizeBreaks cs)),
          scanSpan file plain (Text.normalizeBreaks cs)⟩ ::
        if (scan cs).lexeme = [] then []
        else tokensFrom file ((plain.advance (Text.normalizeBreaks (scan cs).gap)).advance
          (Text.normalizeBreaks (scan cs).lexeme)) (Text.normalizeBreaks (scan cs).rest) := by
  rw [tokensFrom_eq, scan_normalizeBreaks]
  simp only [Scan.normalizeBreaks, Text.normalizeBreaks_eq_nil_iff]
  rfl

end

/-- **The tokens of a text do not depend on how its lines are broken**, but for their offsets. -/
theorem tokensFrom_normalizeBreaks {file : String} {tracker plain : Tracker} {cs : List Char}
    (h : tracker.Alongside plain cs) :
    (tokensFrom file plain (Text.normalizeBreaks cs)).map Token.withoutOffsets =
      (tokensFrom file tracker cs).map Token.withoutOffsets := by
  have hfirst := (scan cs).withoutOffsets_token (@withoutOffsets_scanSpan file _ _ _ h)
  rw [tokensFrom_normalizeBreaks_eq, tokensFrom_eq file tracker, List.map_cons, List.map_cons,
    hfirst]
  split
  · rfl
  · next hne => rw [tokensFrom_normalizeBreaks h.lexeme]
termination_by cs.length
decreasing_by exact scan_rest_lt ‹_›

end SchemaMerge
