import SchemaMerge.Diagnostic.Snippet
import SchemaMerge.Proofs.Text.Lines
import SchemaMerge.Proofs.Token.Breaks

/-!
# Tokens and the lines of a text

No token starts within a line break or with one, so the lines of a text show every token where it
stands, and the carets under its span are its characters up to the first line break in it
(`shownIn_of_mem_tokensFrom`).
-/

namespace SchemaMerge

/-! ## How tokens start -/

theorem isBreak_of_not_isIgnored {c : Char} (h : isIgnored c = false) : Text.isBreak c = false := by
  simp only [isIgnored, Bool.or_eq_false_iff] at h
  simp [Text.isBreak, h]

theorem isIgnored_of_not_endsWord {c : Char} (h : ¬endsWord c = true) : isIgnored c = false := by
  simp only [endsWord, Bool.or_eq_true, not_or] at h
  simp [h]

namespace Scan

/-- What is found stands right at the front, or it is no ignored character behind a word. -/
def StartsClear (scan : Scan) : Prop :=
  scan.gap = [] ∨ ∀ c ∈ scan.lexeme, isIgnored c = false

theorem startsClear_token (lexeme rest : List Char) (kind : TokenKind) :
    StartsClear (token lexeme rest kind) := .inl rfl

theorem startsClear_word (lexeme rest : List Char) (kind : TokenKind) :
    StartsClear (word lexeme rest kind) := by
  unfold word
  split
  · exact startsClear_token ..
  · split
    · exact startsClear_token ..
    · next hends => exact .inr (List.forall_mem_singleton.2 (isIgnored_of_not_endsWord hends))

theorem startsClear_signed (sign : Char) (mark : Punctuator) (rest : List Char) :
    StartsClear (signed sign mark rest) := by
  unfold signed
  split
  · split
    · exact startsClear_word ..
    · exact startsClear_token ..
  · exact startsClear_token ..

theorem startsClear_string (rest : List Char) : StartsClear (string rest) := by
  unfold string
  split <;> exact .inl rfl

theorem startsClear_dots (rest : List Char) : StartsClear (dots rest) := by
  unfold dots
  split <;> exact startsClear_token ..

theorem startsClear_startingWith (c : Char) (rest : List Char) :
    StartsClear (startingWith c rest) := by
  fun_cases startingWith c rest with
  | case1 => exact startsClear_token ..
  | case2 => exact startsClear_token ..
  | case3 => exact startsClear_dots rest
  | case4 => exact startsClear_string rest
  | case5 => exact startsClear_word ..
  | case6 => exact startsClear_word ..
  | case7 => exact startsClear_signed ..
  | case8 => exact startsClear_signed ..
  | case9 => exact .inl rfl

/-- Of a text that starts with no ignored character nothing that is found starts with one. -/
theorem not_isIgnored_front {cs : List Char} (h : HeadIn (fun c => !isIgnored c) cs) :
    HeadIn (fun c => !isIgnored c) (front cs).lexeme := by
  cases cs with
  | nil => rintro _ ⟨⟩
  | cons c rest =>
    intro d hd
    rcases startsClear_startingWith c rest with hgap | hclear
    · have hall := all_startingWith c rest
      obtain ⟨tail, htail⟩ := List.head?_eq_some_iff.1 hd
      rw [all, hgap, List.nil_append, show (startingWith c rest).lexeme = d :: tail from htail]
        at hall
      obtain ⟨rfl, -⟩ := List.cons.inj hall
      exact h d rfl
    · simp [hclear d (List.mem_of_mem_head? hd)]

end Scan

/-- No token starts with a line break. -/
theorem not_isBreak_head_lexeme (cs : List Char) :
    HeadIn (fun c => !Text.isBreak c) (scan cs).lexeme := by
  refine (Scan.not_isIgnored_front (headIn_dropWhile isIgnored cs)).mono fun c hc => ?_
  simp only [Bool.not_eq_true'] at hc ⊢
  exact isBreak_of_not_isIgnored hc

/-! ## Spans -/

/-- The lines of the text show the start of the span, and the carets under it are as many as the
characters that it covers on its first line, or one if it covers none. -/
structure Span.ShownIn (cs : List Char) (span : Span) : Prop where
  start : span.start.ShownIn cs
  carets : ∀ line, Text.line? cs span.start.line = some line → span.caretCount line =
    if span.stop.offset = span.start.offset then 1
    else (Text.firstLine (cs.extract span.start.offset span.stop.offset)).length

namespace Tracker.Before

variable {tracker : Tracker} {cs lexeme rest : List Char}

/-- The line that a tracker stands on goes on to the next break. -/
theorem line_eq (h : tracker.Before cs rest) {line : List Char}
    (hline : Text.line? cs tracker.position.line = some line) :
    line.length = tracker.position.column + (Text.firstLine rest).length := by
  obtain ⟨front, hlength, hfront, hbehind⟩ := h.line
  rw [Text.line?_eq, hbehind, Option.map_some, Text.firstLine_append hfront] at hline
  rw [← Option.some.inj hline, List.length_append, hlength]

/-- On its first line a token ends where the next one starts, or where the line ends. -/
theorem caretCount_eq (h : tracker.Before cs (lexeme ++ rest))
    (hlexeme : HeadIn (fun c => !Text.isBreak c) lexeme) (file : String) {line : List Char}
    (hline : Text.line? cs tracker.position.line = some line) :
    Span.caretCount ⟨file, tracker.position, (tracker.advance lexeme).position⟩ line =
      if lexeme = [] then 1 else (Text.firstLine lexeme).length := by
  have hstop : (if (tracker.advance lexeme).position.line = tracker.position.line
      then (tracker.advance lexeme).position.column else line.length) =
        tracker.position.column + (Text.firstLine lexeme).length := by
    by_cases hbreak : ∀ c ∈ lexeme, Text.isBreak c = false
    · rw [if_pos (line_advance_of_not_isBreak tracker hbreak),
        column_advance_of_not_isBreak tracker hbreak, Text.firstLine_eq_self hbreak]
    · rw [if_neg (h.line_lt_line_advance hbreak).ne', h.line_eq hline,
        Text.firstLine_append_of_isBreak hbreak]
  rw [Span.caretCount, hstop]
  cases lexeme with
  | nil => simp [Text.firstLine]
  | cons c lexeme =>
    have hc : (!Text.isBreak c) = true := hlexeme c rfl
    have hpos : 0 < (Text.firstLine (c :: lexeme)).length := by
      rw [Text.firstLine, List.takeWhile_cons, if_pos hc]
      exact Nat.zero_lt_succ _
    rw [if_pos (Nat.lt_add_of_pos_right hpos), if_neg (List.cons_ne_nil c lexeme),
      Nat.add_sub_cancel_left]

/-- The place of a lexeme is shown if it does not start with a break. -/
theorem shownIn_span (h : tracker.Before cs (lexeme ++ rest))
    (hlexeme : HeadIn (fun c => !Text.isBreak c) lexeme) (file : String) :
    Span.ShownIn cs ⟨file, tracker.position, (tracker.advance lexeme).position⟩ where
  start := h.shownIn
  carets line hline := by
    have hstop : (tracker.advance lexeme).position.offset =
        tracker.position.offset + lexeme.length := advance_offset ..
    have hextract : cs.extract tracker.position.offset (tracker.advance lexeme).position.offset =
        lexeme := by
      rw [List.extract_eq_take_drop, h.offset, hstop, Nat.add_sub_cancel_left, List.take_left]
    rw [h.caretCount_eq hlexeme file hline, hextract, hstop]
    simp

theorem gap (h : tracker.Before cs rest) :
    (tracker.advance (scan rest).gap).Before cs ((scan rest).lexeme ++ (scan rest).rest) := by
  refine advance ?_ (unsplit_scan rest).1
  rwa [← List.append_assoc, scan_append]

end Tracker.Before

/-- **The lines of a text show all of its tokens.** -/
theorem shownIn_of_mem_tokensFrom {file : String} {tracker : Tracker} {cs rest : List Char}
    (h : tracker.Before cs rest) :
    ∀ token ∈ tokensFrom file tracker rest, token.span.ShownIn cs := by
  rw [tokensFrom_eq]
  refine List.forall_mem_cons.2 ⟨h.gap.shownIn_span (not_isBreak_head_lexeme rest) file, ?_⟩
  split
  · exact List.forall_mem_nil _
  · next hne => exact shownIn_of_mem_tokensFrom (h.gap.advance (unsplit_scan rest).2)
termination_by rest.length
decreasing_by exact scan_rest_lt ‹_›

end SchemaMerge
