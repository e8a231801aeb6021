import SchemaMerge.Proofs.Reading.Faults
import SchemaMerge.Proofs.Reading.Joined

/-!
# Blanks for commas

A text in which a space stands for each comma that is a token has the tokens of the text without the
commas, each in its place (`tokensFrom_blankFrom`). A token that ends in front of a comma ends in
front of a space as well, and no other character that decides where a token ends is replaced.
-/

namespace SchemaMerge

/-! ## Where a token ends -/

/-- In front of `rest` a token of the kind ends behind its lexeme. -/
def TokenKind.StopsBefore (lexeme rest : List Char) : TokenKind → Prop
  | .punctuator .dot => ¬['.', '.'] <+: rest
  | .string _ => lexeme = ['"', '"'] → HeadIn (· ≠ '"') rest
  | kind => kind.EndsBefore rest

theorem TokenKind.EndsBefore.stopsBefore {kind : TokenKind} {rest : List Char}
    (h : kind.EndsBefore rest) (lexeme : List Char) : kind.StopsBefore lexeme rest := by
  cases kind with
  | punctuator mark =>
    cases mark with
    | dot =>
      rintro ⟨tail, rfl⟩
      exact absurd (h '.' rfl) (by decide)
    | _ => exact h
  | string => exact fun _ => h
  | _ => exact h

namespace Scan

/-- What is found ends where it is found to end. -/
def Stops (scan : Scan) : Prop :=
  ∀ kind, scan.reading = .ok kind → kind.StopsBefore scan.lexeme scan.rest

theorem stops_token {lexeme rest : List Char} {kind : TokenKind}
    (h : kind.StopsBefore lexeme rest) : Stops (token lexeme rest kind) := by
  rintro _ ⟨⟩
  exact h

theorem stops_word {lexeme rest : List Char} {kind : TokenKind}
    (h : Delimited rest → kind.EndsBefore rest) : Stops (word lexeme rest kind) := by
  intro found hfound
  have hrest := delimited_of_word hfound
  rw [word_of_delimited hrest] at hfound ⊢
  exact stops_token ((h hrest).stopsBefore lexeme) found hfound

theorem stops_number (sign cs : List Char) : Stops (number sign cs) := by
  refine stops_word fun hrest => ?_
  split <;> exact hrest

theorem stops_signed {sign : Char} {mark : Punctuator} (hmark : mark = .minus ∨ mark = .plus)
    (rest : List Char) : Stops (signed sign mark rest) := by
  have hends (h : HeadIn (fun c => !c.isDigit) rest) : Stops (token [sign] rest
      (.punctuator mark)) := by
    refine stops_token (TokenKind.EndsBefore.stopsBefore ?_ _)
    rcases hmark with rfl | rfl <;> exact h
  unfold signed
  split
  · split
    · exact stops_number _ _
    · next hd =>
      refine hends ?_
      rintro _ ⟨⟩
      simpa using hd
  · exact hends (by rintro _ ⟨⟩)

theorem stops_dots (rest : List Char) : Stops (dots rest) := by
  unfold dots
  split
  · exact stops_token trivial
  · next hlong =>
    refine stops_token ?_
    rintro ⟨tail, rfl⟩
    exact hlong tail rfl

theorem stops_comment (rest : List Char) : Stops (comment rest) := by
  refine stops_token (TokenKind.EndsBefore.stopsBefore ?_ _)
  exact headIn_dropWhile_not Text.isBreak rest

theorem stops_quoted {opening : List Char} {tail : StringSplit} {fault : LexicalCause}
    {toKind : List Char → TokenKind}
    (h : tail.closed = true →
      (toKind (opening ++ tail.taken)).StopsBefore (opening ++ tail.taken) tail.rest) :
    Stops (quoted opening tail fault toKind) := by
  intro kind hkind
  unfold quoted at hkind ⊢
  split at hkind
  · next hclosed =>
    cases hkind
    exact h hclosed
  · cases hkind

/-- Behind an empty string stands no quote: it would open a block string. -/
theorem stops_string (rest : List Char) : Stops (string rest) := by
  unfold string
  split
  · exact stops_quoted fun _ => trivial
  · next hshort =>
    refine stops_quoted fun _ hempty c hc => ?_
    have htaken : (stringTail rest).taken = ['"'] := (List.cons.inj hempty).2
    obtain ⟨tail, htail⟩ := List.head?_eq_some_iff.1 hc
    have hrest := stringTail_append rest
    rw [htaken, htail] at hrest
    rw [decide_eq_true_eq]
    rintro rfl
    exact hshort tail hrest.symm

theorem stops_startingWith (c : Char) (rest : List Char) : Stops (startingWith c rest) := by
  fun_cases startingWith c rest with
  | case1 mark hmark => exact stops_token ((endsBefore_mark hmark rest).stopsBefore _)
  | case2 => exact stops_comment rest
  | case3 => exact stops_dots rest
  | case4 => exact stops_string rest
  | case5 => exact stops_word endsBefore_nameKind
  | case6 => exact stops_number _ _
  | case7 => exact stops_signed (.inl rfl) rest
  | case8 => exact stops_signed (.inr rfl) rest
  | case9 => rintro _ ⟨⟩

end Scan

theorem stopsBefore_of_scan {cs : List Char} {kind : TokenKind}
    (h : (scan cs).reading = .ok kind) : kind.StopsBefore (scan cs).lexeme (scan cs).rest := by
  have hfront : (Scan.front (cs.dropWhile isIgnored)).Stops := by
    cases cs.dropWhile isIgnored with
    | nil => exact Scan.stops_token trivial
    | cons c rest => exact Scan.stops_startingWith c rest
  exact hfront kind h

/-- **A token is found again from its lexeme in front of a text in which it ends.** -/
theorem scan_of_stopsBefore {lexeme rest : List Char} {kind : TokenKind} (h : Spells lexeme kind)
    (hrest : kind.StopsBefore lexeme rest) :
    scan (lexeme ++ rest) = Scan.token lexeme rest kind := by
  cases h with
  | dot =>
    show Scan.dots rest = _
    unfold Scan.dots
    split
    · next tail => exact absurd ⟨tail, rfl⟩ hrest
    · rfl
  | @string cs h =>
    by_cases hempty : '"' :: cs = ['"', '"']
    · exact scan_append_rest (.string h) (hrest hempty)
    · -- A character that is no quote follows the opening quote.
      have hopen : ∀ tail, cs ++ rest ≠ '"' :: '"' :: tail := by
        intro tail heq
        cases h with
        | close => exact hempty rfl
        | escape => simp at heq
        | char hquote => exact hquote (List.cons.inj heq).1
      show Scan.string (cs ++ rest) = _
      rw [Scan.string]
      · rw [stringTail_append_rest h]
        rfl
      · exact hopen
  | mark hmark => exact scan_mark hmark rest
  | ellipsis => rfl
  | minus => exact scan_append_rest .minus hrest
  | plus => exact scan_append_rest .plus hrest
  | comment h => exact scan_append_rest (.comment h) hrest
  | word hc hcs =>
    refine scan_append_rest (.word hc hcs) ?_
    unfold Scan.nameKind at hrest ⊢
    split at hrest <;> exact hrest
  | float hsign h => exact scan_append_rest (.float hsign h) hrest
  | integer hsign h => exact scan_append_rest (.integer hsign h) hrest
  | blockString h => exact scan_append_rest (.blockString h) hrest

/-! ## Texts with blanks -/

/-- The one text has spaces in places where the other has commas. -/
def Blanks (cs ds : List Char) : Prop := List.Forall₂ (fun c d => d = c ∨ c = ',' ∧ d = ' ') cs ds

theorem blanks_refl (cs : List Char) : Blanks cs cs := List.forall₂_same.2 fun _ _ => .inl rfl

theorem Blanks.append {cs ds cs' ds' : List Char} (h : Blanks cs ds) (h' : Blanks cs' ds') :
    Blanks (cs ++ cs') (ds ++ ds') := List.rel_append h h'

theorem Blanks.headIn {cs ds : List Char} (h : Blanks cs ds) {p : Char → Bool}
    (hp : p ',' = true → p ' ' = true) (hcs : HeadIn p cs) : HeadIn p ds := by
  cases h with
  | nil => exact hcs
  | cons hd =>
    rintro _ ⟨⟩
    rcases hd with rfl | ⟨rfl, rfl⟩
    · exact hcs _ rfl
    · exact hp (hcs _ rfl)

/-- A token ends in front of a space where it ends in front of a comma. -/
theorem Blanks.stopsBefore {rest rest' : List Char} (h : Blanks rest rest') {kind : TokenKind}
    {lexeme : List Char} (hrest : kind.StopsBefore lexeme rest) :
    kind.StopsBefore lexeme rest' := by
  have hdelimited (hrest : Delimited rest) : Delimited rest' := h.headIn (fun _ => rfl) hrest
  cases kind with
  | punctuator mark =>
    cases mark with
    | dot =>
      rintro ⟨tail, rfl⟩
      obtain _ | ⟨hfirst, _ | ⟨hsecond, -⟩⟩ := h
      obtain rfl : '.' = _ := hfirst.resolve_right (by simp)
      obtain rfl : '.' = _ := hsecond.resolve_right (by simp)
      exact hrest ⟨_, rfl⟩
    | minus | plus => exact h.headIn (fun _ => rfl) hrest
    | _ => trivial
  | keyword | name | integer | float => exact hdelimited hrest
  | string => exact fun hempty => h.headIn (fun _ => rfl) (hrest hempty)
  | comment => exact h.headIn (by decide) hrest
  | _ => trivial

/-- A comma among the tokens starts at the offset. -/
def IsCommaAt (tokens : List Token) (offset : Nat) : Prop :=
  ∃ token ∈ tokens, token.kind = .punctuator .comma ∧ token.span.start.offset = offset

instance (tokens : List Token) (offset : Nat) : Decidable (IsCommaAt tokens offset) :=
  inferInstanceAs (Decidable (∃ token ∈ tokens,
    token.kind = .punctuator .comma ∧ token.span.start.offset = offset))

/-- The rest of a text from an offset on, with a space for each character at which a comma among the
tokens starts. -/
def blankFrom (tokens : List Token) (offset : Nat) (cs : List Char) : List Char :=
  cs.mapIdx fun i c => if IsCommaAt tokens (offset + i) then ' ' else c

/-- The text with a space for each comma among its tokens. -/
def blankCommas (tokens : List Token) (text : String) : String :=
  String.ofList (blankFrom tokens 0 text.toList)

section

variable {tokens : List Token} {token : Token} {offset : Nat} {cs : List Char}

theorem blankFrom_append (tokens : List Token) (offset : Nat) (cs ds : List Char) :
    blankFrom tokens offset (cs ++ ds) =
      blankFrom tokens offset cs ++ blankFrom tokens (offset + cs.length) ds := by
  simp only [blankFrom, List.mapIdx_append]
  congr 2
  funext i c
  rw [Nat.add_assoc, Nat.add_comm i]

theorem blankFrom_congr {others : List Token} (h : ∀ i < cs.length,
    (IsCommaAt tokens (offset + i) ↔ IsCommaAt others (offset + i))) :
    blankFrom tokens offset cs = blankFrom others offset cs := by
  refine List.mapIdx_eq_mapIdx_iff.2 fun i hi => ?_
  simp only [h i hi]

theorem blankFrom_of_not (h : ∀ i < cs.length, ¬IsCommaAt tokens (offset + i)) :
    blankFrom tokens offset cs = cs := by
  refine List.ext_getElem (by simp [blankFrom]) fun i _ hi => ?_
  simp [blankFrom, h i hi]

theorem isCommaAt_cons :
    IsCommaAt (token :: tokens) offset ↔
      (token.kind = .punctuator .comma ∧ token.span.start.offset = offset) ∨
        IsCommaAt tokens offset := by
  simp [IsCommaAt]

theorem not_isCommaAt_of_lt {start : Nat} (h : ∀ token ∈ tokens, start ≤ token.span.start.offset)
    (hoffset : offset < start) : ¬IsCommaAt tokens offset := by
  rintro ⟨token, ht, -, rfl⟩
  exact absurd (h token ht) (Nat.not_le.2 hoffset)

end

/-! ## Tokens of a text with blanks -/

section

variable {file : String} {tracker : Tracker} {cs : List Char}

theorem le_start_of_mem_tokensFrom {token : Token} (h : token ∈ tokensFrom file tracker cs) :
    tracker.position.offset ≤ token.span.start.offset := by
  have htiles := @tiles_tokensFrom file tracker (List.replicate tracker.position.offset ' ') cs
    (by simp)
  simpa using htiles.le_start_of_mem token h

theorem lexeme_of_comma {lexeme : List Char} (h : Spells lexeme (.punctuator .comma)) :
    lexeme = [','] := by
  generalize hkind : TokenKind.punctuator .comma = kind at h
  cases h with
  | mark hmark =>
    cases hkind
    have htext := Punctuator.text_ofChar? hmark
    rw [← htext]
    rfl
  | word =>
    unfold Scan.nameKind at hkind
    split at hkind <;> cases hkind
  | _ => cases hkind

theorem spells_of_kindAt {span : Span} {kind : TokenKind} (h : (scan cs).kindAt span = kind)
    (hproper : kind.isProper = true) (hne : (scan cs).lexeme ≠ []) :
    Spells (scan cs).lexeme kind := by
  unfold Scan.kindAt at h
  split at h
  · next hreading => exact h ▸ spells_of_scan hreading hne
  · rw [← h] at hproper
    cases hproper

/-- The blanks of a text: that of its first token, if it is a comma, and those behind it. -/
theorem blankFrom_scan (h : (scan cs).lexeme ≠ []) :
    let span := scanSpan file tracker cs
    blankFrom (tokensFrom file tracker cs) tracker.position.offset cs =
      (scan cs).gap ++ ((if (scan cs).kindAt span = .punctuator .comma then [' ']
        else (scan cs).lexeme) ++
          blankFrom (tokensFrom file ((tracker.advance (scan cs).gap).advance (scan cs).lexeme)
            (scan cs).rest) span.stop.offset (scan cs).rest) := by
  intro span
  have hstart : span.start.offset = tracker.position.offset + (scan cs).gap.length :=
    Tracker.advance_offset ..
  have hstop : span.stop.offset = span.start.offset + (scan cs).lexeme.length :=
    Tracker.advance_offset ..
  have hbehind : ∀ token ∈ tokensFrom file
      ((tracker.advance (scan cs).gap).advance (scan cs).lexeme) (scan cs).rest,
      span.stop.offset ≤ token.span.start.offset :=
    fun token ht => le_start_of_mem_tokensFrom ht
  have htokens := tokensFrom_eq file tracker cs
  rw [if_neg h] at htokens
  rw [htokens]
  generalize tokensFrom file ((tracker.advance (scan cs).gap).advance (scan cs).lexeme)
    (scan cs).rest = behind at hbehind
  change blankFrom (⟨(scan cs).kindAt span, span⟩ :: behind) tracker.position.offset cs = _
  have hgap : blankFrom (⟨(scan cs).kindAt span, span⟩ :: behind) tracker.position.offset
      (scan cs).gap = (scan cs).gap := by
    refine blankFrom_of_not fun i hi => ?_
    rw [isCommaAt_cons, not_or]
    refine ⟨fun hat => ?_, not_isCommaAt_of_lt hbehind (by omega)⟩
    have hoffset : span.start.offset = tracker.position.offset + i := hat.2
    omega
  have hlexeme : blankFrom (⟨(scan cs).kindAt span, span⟩ :: behind) span.start.offset
      (scan cs).lexeme =
        if (scan cs).kindAt span = .punctuator .comma then [' '] else (scan cs).lexeme := by
    by_cases hcomma : (scan cs).kindAt span = .punctuator .comma
    · rw [if_pos hcomma, lexeme_of_comma (spells_of_kindAt hcomma rfl h)]
      simp [blankFrom, IsCommaAt, hcomma]
    · rw [if_neg hcomma]
      refine blankFrom_of_not fun i hi => ?_
      rw [isCommaAt_cons, not_or]
      exact ⟨fun hat => hcomma hat.1, not_isCommaAt_of_lt hbehind (by omega)⟩
  have hrest : blankFrom (⟨(scan cs).kindAt span, span⟩ :: behind) span.stop.offset
      (scan cs).rest = blankFrom behind span.stop.offset (scan cs).rest := by
    refine blankFrom_congr fun i _ => ?_
    rw [isCommaAt_cons, or_iff_right]
    intro hat
    have hoffset : span.start.offset = span.stop.offset + i := hat.2
    have hpos := List.length_pos_iff.2 h
    omega
  have hsplit : cs = (scan cs).gap ++ ((scan cs).lexeme ++ (scan cs).rest) := by
    rw [← List.append_assoc, scan_append]
  calc blankFrom (⟨(scan cs).kindAt span, span⟩ :: behind) tracker.position.offset cs
      = blankFrom (⟨(scan cs).kindAt span, span⟩ :: behind) tracker.position.offset
          ((scan cs).gap ++ ((scan cs).lexeme ++ (scan cs).rest)) := congrArg _ hsplit
    _ = _ := by
      rw [blankFrom_append, blankFrom_append, ← hstart, ← hstop, hgap, hlexeme, hrest]

theorem blankFrom_of_lexeme_eq_nil (h : (scan cs).lexeme = []) (file : String)
    (tracker : Tracker) (offset : Nat) :
    blankFrom (tokensFrom file tracker cs) offset cs = cs := by
  refine blankFrom_of_not fun i _ => ?_
  rw [tokensFrom_eq, if_pos h]
  rintro ⟨token, ht, hcomma, -⟩
  obtain rfl := List.mem_singleton.1 ht
  rw [(kindAt_eq_endOfText_iff cs _).2 h] at hcomma
  cases hcomma

/-- Blanks stand where commas are. -/
theorem blanks_blankFrom (file : String) (tracker : Tracker) (cs : List Char) :
    Blanks cs (blankFrom (tokensFrom file tracker cs) tracker.position.offset cs) := by
  by_cases hne : (scan cs).lexeme = []
  · rw [blankFrom_of_lexeme_eq_nil hne]
    exact blanks_refl cs
  · have hrest := blanks_blankFrom file ((tracker.advance (scan cs).gap).advance (scan cs).lexeme)
      (scan cs).rest
    have hlexeme : Blanks (scan cs).lexeme
        (if (scan cs).kindAt (scanSpan file tracker cs) = .punctuator .comma then [' ']
          else (scan cs).lexeme) := by
      by_cases hcomma : (scan cs).kindAt (scanSpan file tracker cs) = .punctuator .comma
      · rw [if_pos hcomma, lexeme_of_comma (spells_of_kindAt hcomma rfl hne)]
        exact .cons (.inr ⟨rfl, rfl⟩) .nil
      · rw [if_neg hcomma]
        exact blanks_refl _
    have hall := (blanks_refl (scan cs).gap).append (hlexeme.append hrest)
    rw [← List.append_assoc, scan_append] at hall
    rw [blankFrom_scan hne]
    exact hall
termination_by cs.length
decreasing_by exact scan_rest_lt ‹_›

/-- The tokens of a text that starts with a known one. -/
theorem tokensFrom_spells {gap lexeme rest : List Char} {kind : TokenKind}
    (hgap : ∀ c ∈ gap, isIgnored c = true) (hspells : Spells lexeme kind)
    (hstops : kind.StopsBefore lexeme rest) (file : String) (tracker : Tracker) :
    tokensFrom file tracker (gap ++ (lexeme ++ rest)) =
      ⟨kind, ⟨file, (tracker.advance gap).position,
          ((tracker.advance gap).advance lexeme).position⟩⟩ ::
        tokensFrom file ((tracker.advance gap).advance lexeme) rest := by
  have hscan : scan (gap ++ (lexeme ++ rest)) = ⟨gap, lexeme, rest, .ok kind⟩ := by
    rw [scan_gap_append hgap, scan_of_stopsBefore hspells hstops, Scan.token]
    simp
  rw [tokensFrom_eq, scanSpan, hscan, if_neg hspells.ne_nil]
  rfl

/-- A space leads where a comma leads. -/
theorem step_space (tracker : Tracker) : tracker.step ' ' = tracker.step ',' := rfl

/-- **With blanks for its commas a text has the same tokens but for the commas.** -/
theorem tokensFrom_blankFrom {tracker : Tracker} {cs : List Char}
    (h : ∀ token ∈ tokensFrom file tracker cs, token.kind.isProper = true) :
    tokensFrom file tracker (blankFrom (tokensFrom file tracker cs) tracker.position.offset cs) =
      (tokensFrom file tracker cs).filter fun token => token.kind ≠ .punctuator .comma := by
  by_cases hne : (scan cs).lexeme = []
  · rw [blankFrom_of_lexeme_eq_nil hne, tokensFrom_eq, if_pos hne, List.filter_singleton,
      (kindAt_eq_endOfText_iff cs _).2 hne]
    rfl
  · have hblanks := blanks_blankFrom file
      ((tracker.advance (scan cs).gap).advance (scan cs).lexeme) (scan cs).rest
    have htokens := tokensFrom_eq file tracker cs
    rw [if_neg hne] at htokens
    rw [htokens, List.forall_mem_cons] at h
    obtain ⟨kind, hreading, hkind⟩ := exists_reading_of_isProper h.1
    have hrest := tokensFrom_blankFrom h.2
    have hspells := spells_of_scan hreading hne
    have hgap := isIgnored_of_mem_gap hreading
    rw [blankFrom_scan hne, htokens, hkind]
    by_cases hcomma : kind = .punctuator .comma
    · rw [if_pos hcomma, List.filter_cons_of_neg (by simp [hcomma]), ← List.append_assoc,
        tokensFrom_gap_append (List.forall_mem_append.2 ⟨hgap, List.forall_mem_singleton.2 rfl⟩)]
      have hlexeme : (scan cs).lexeme = [','] := lexeme_of_comma (hcomma ▸ hspells)
      have hstop : tracker.advance ((scan cs).gap ++ [' ']) =
          (tracker.advance (scan cs).gap).advance (scan cs).lexeme := by
        rw [Tracker.advance_append, hlexeme]
        exact step_space _
      rw [hstop]
      exact hrest
    · rw [if_neg hcomma, List.filter_cons_of_pos (by simp [hcomma]), ← hrest]
      have hstops := hblanks.stopsBefore (stopsBefore_of_scan hreading)
      exact tokensFrom_spells hgap hspells hstops file tracker
termination_by cs.length
decreasing_by exact scan_rest_lt ‹_›

end

end SchemaMerge
