import Mathlib.Data.List.Chain
import Mathlib.Tactic.SplitIfs
import SchemaMerge.Proofs.Reading.Feed

/-!
# The tokens of two texts with a line feed between them

A line feed ends every token but a block string that is still open, and it is part of no other. So
the tokens of a text without faults come first in any text that goes on behind it on a new line, and
the tokens of what follows stand behind them (`tokensFrom_append`).

Further results, on where the tokens of a text stand:
* `stop_line_lt_of_mem_tokensFrom`: each of them ends before the line that follows the text.
* `commentsApart_tokensFrom`: a comment ends its line, so no other comment follows on it.
* `Tracker.advance_start_line_feed`: the place at the start of the line that follows a text.
-/

namespace SchemaMerge

/-- A run at the front of a list ends in it, or where the next list starts with something else. -/
theorem takeWhile_append_of_stops {α : Type} {p : α → Bool} {as bs : List α}
    (h : as.dropWhile p = [] → ∀ b ∈ bs.head?, p b = false) :
    (as ++ bs).takeWhile p = as.takeWhile p ∧ (as ++ bs).dropWhile p = as.dropWhile p ++ bs := by
  induction as with
  | nil =>
    cases bs with
    | nil => exact ⟨rfl, rfl⟩
    | cons b bs => simp [h rfl b rfl]
  | cons a as ih =>
    cases ha : p a with
    | true => simpa [ha] using ih (by simpa [ha] using h)
    | false => simp [ha]

/-! ## One token -/

/-- The scan of a text that goes on behind. -/
def Scan.extend (scan : Scan) (more : List Char) : Scan := { scan with rest := scan.rest ++ more }

namespace Scan

variable {kind : TokenKind} (more : List Char)

theorem delimited_of_word {lexeme rest : List Char} {wordKind : TokenKind}
    (h : (word lexeme rest wordKind).reading = .ok kind) : Delimited rest := by
  unfold word at h
  split at h
  · rintro _ ⟨⟩
  · split at h
    · next hends =>
      rintro _ ⟨⟩
      exact hends
    · cases h

theorem delimited_append_line_feed {rest : List Char} (h : Delimited rest) :
    Delimited (rest ++ '\n' :: more) :=
  headIn_append h (by rintro _ ⟨⟩; rfl)

theorem word_append {lexeme rest : List Char} {wordKind : TokenKind}
    (h : (word lexeme rest wordKind).reading = .ok kind) :
    word lexeme (rest ++ '\n' :: more) wordKind =
      (word lexeme rest wordKind).extend ('\n' :: more) := by
  have hrest := delimited_of_word h
  rw [word_of_delimited hrest, word_of_delimited (delimited_append_line_feed more hrest)]
  rfl

theorem number_append {sign : List Char} {d : Char} {cs : List Char} (hd : d.isDigit = true)
    (h : (number sign (d :: cs)).reading = .ok kind) :
    number sign (d :: cs ++ '\n' :: more) = (number sign (d :: cs)).extend ('\n' :: more) := by
  obtain ⟨body, hbody, hnumber⟩ := @NumberSplit.isNumber_unsigned d cs hd sign
  have hrest := delimited_of_word h
  have hcs := NumberSplit.unsigned_append sign (d :: cs)
  rw [hbody, List.append_assoc, List.append_cancel_left_eq] at hcs
  generalize (NumberSplit.unsigned sign (d :: cs)).isFloat = isFloat at hnumber
  generalize (NumberSplit.unsigned sign (d :: cs)).rest = rest at hrest hcs
  rw [← hcs, List.append_assoc, number_append_rest hnumber hrest,
    number_append_rest hnumber (delimited_append_line_feed more hrest)]
  rfl

theorem signed_append {sign : Char} {mark : Punctuator} {rest : List Char}
    (h : (signed sign mark rest).reading = .ok kind) :
    signed sign mark (rest ++ '\n' :: more) = (signed sign mark rest).extend ('\n' :: more) := by
  cases rest with
  | nil => rfl
  | cons d rest =>
    simp only [signed, List.cons_append] at h ⊢
    split at h
    · next hd => rw [if_pos hd, if_pos hd, ← List.cons_append, number_append more hd h]
    · next hd =>
      rw [if_neg hd, if_neg hd]
      rfl

theorem quoted_append {opening : List Char} {split : List Char → StringSplit} {fault : LexicalCause}
    {toKind : List Char → TokenKind} {rest : List Char}
    (hsplit : (split rest).closed = true →
      split (rest ++ '\n' :: more) =
        ⟨(split rest).taken, true, (split rest).rest ++ '\n' :: more⟩)
    (h : (quoted opening (split rest) fault toKind).reading = .ok kind) :
    quoted opening (split (rest ++ '\n' :: more)) fault toKind =
      (quoted opening (split rest) fault toKind).extend ('\n' :: more) := by
  cases hclosed : (split rest).closed with
  | true => simp [quoted, extend, hclosed, hsplit hclosed]
  | false => simp [quoted, hclosed] at h

theorem stringTail_append_line_feed {rest : List Char} (h : (stringTail rest).closed = true) :
    stringTail (rest ++ '\n' :: more) =
      ⟨(stringTail rest).taken, true, (stringTail rest).rest ++ '\n' :: more⟩ := by
  have hagain := stringTail_append_rest (isStringTail_stringTail h)
    ((stringTail rest).rest ++ '\n' :: more)
  rwa [← List.append_assoc, stringTail_append] at hagain

theorem blockTail_append_line_feed {rest : List Char} (h : (blockTail rest).closed = true) :
    blockTail (rest ++ '\n' :: more) =
      ⟨(blockTail rest).taken, true, (blockTail rest).rest ++ '\n' :: more⟩ := by
  have hagain := blockTail_append_rest (isBlockTail_blockTail h)
    ((blockTail rest).rest ++ '\n' :: more)
  rwa [← List.append_assoc, blockTail_append] at hagain

theorem string_append {rest : List Char} (h : (string rest).reading = .ok kind) :
    string (rest ++ '\n' :: more) = (string rest).extend ('\n' :: more) := by
  unfold string at h ⊢
  split at h
  · next rest => exact quoted_append more (blockTail_append_line_feed more) h
  · next hshort =>
    -- The line feed does not open a block string behind a quote.
    split
    · next tail htail =>
      cases rest with
      | nil => cases htail
      | cons c rest =>
        cases rest with
        | nil => cases htail
        | cons d rest =>
          cases htail
          exact absurd rfl (hshort _)
    · exact quoted_append more (stringTail_append_line_feed more) h

theorem dots_append (rest : List Char) :
    dots (rest ++ '\n' :: more) = (dots rest).extend ('\n' :: more) := by
  unfold dots
  split
  · next tail htail =>
    cases rest with
    | nil => cases htail
    | cons c rest =>
      cases rest with
      | nil => cases htail
      | cons d rest =>
        cases htail
        rfl
  · next hlong =>
    split
    · exact absurd rfl (hlong _)
    · rfl

theorem comment_append (rest : List Char) :
    comment (rest ++ '\n' :: more) = (comment rest).extend ('\n' :: more) := by
  obtain ⟨htake, hdrop⟩ := @takeWhile_append_of_stops _ (fun c => !Text.isBreak c) rest
    ('\n' :: more) fun _ => by rintro _ ⟨⟩; rfl
  simp only [comment, htake, hdrop]
  rfl

theorem name_append {first : Char} {rest : List Char} (h : (name first rest).reading = .ok kind) :
    name first (rest ++ '\n' :: more) = (name first rest).extend ('\n' :: more) := by
  obtain ⟨htake, hdrop⟩ := @takeWhile_append_of_stops _ isNamePart rest ('\n' :: more)
    fun _ => by rintro _ ⟨⟩; rfl
  simp only [name, htake, hdrop]
  exact word_append more h

theorem startingWith_append {c : Char} {rest : List Char}
    (h : (startingWith c rest).reading = .ok kind) :
    startingWith c (rest ++ '\n' :: more) = (startingWith c rest).extend ('\n' :: more) := by
  unfold startingWith at h ⊢
  cases hmark : Punctuator.ofChar? c with
  | some mark => rfl
  | none =>
    simp only [hmark] at h ⊢
    split_ifs at h ⊢ with hcomment hdot hquote hname hdigit hminus hplus
    · exact comment_append more rest
    · exact dots_append more rest
    · exact string_append more h
    · exact name_append more h
    · exact number_append more hdigit h
    · exact signed_append more h
    · exact signed_append more h

end Scan

/-- **A token is found again in a text that goes on behind it on a new line.** -/
theorem scan_append_line_feed {cs : List Char} {kind : TokenKind}
    (h : (scan cs).reading = .ok kind) (hne : (scan cs).lexeme ≠ []) (more : List Char) :
    scan (cs ++ '\n' :: more) = (scan cs).extend ('\n' :: more) := by
  have hsplit : cs = cs.takeWhile isIgnored ++ cs.dropWhile isIgnored :=
    List.takeWhile_append_dropWhile.symm
  cases hcs : cs.dropWhile isIgnored with
  | nil => exact absurd (by simp [scan, hcs, Scan.front, Scan.token]) hne
  | cons c rest =>
    have hc : isIgnored c = false := by
      simpa [hcs] using List.head?_dropWhile_not isIgnored cs
    have hreading : (Scan.startingWith c rest).reading = .ok kind := by
      simpa [scan, hcs, Scan.front] using h
    calc scan (cs ++ '\n' :: more)
        = scan (cs.takeWhile isIgnored ++ c :: (rest ++ '\n' :: more)) := by
          rw [← List.cons_append, ← List.append_assoc, ← hcs, ← hsplit]
      _ = { (Scan.startingWith c rest).extend ('\n' :: more) with
            gap := cs.takeWhile isIgnored ++ (Scan.startingWith c rest).gap } := by
          rw [scan_gap_append forall_mem_takeWhile, scan_cons_of_not_isIgnored hc,
            Scan.startingWith_append more hreading]
          rfl
      _ = (scan cs).extend ('\n' :: more) := by simp [scan, hcs, Scan.front, Scan.extend]

/-! ## All tokens -/

theorem tokensFrom_ne_nil (file : String) (tracker : Tracker) (cs : List Char) :
    tokensFrom file tracker cs ≠ [] := by
  rw [tokensFrom_eq]
  exact List.cons_ne_nil _ _

theorem tokensFrom_gap_append {gap : List Char} (h : ∀ c ∈ gap, isIgnored c = true) (file : String)
    (tracker : Tracker) (cs : List Char) :
    tokensFrom file tracker (gap ++ cs) = tokensFrom file (tracker.advance gap) cs := by
  rw [tokensFrom_eq, tokensFrom_eq file (tracker.advance gap)]
  simp only [scanSpan, scan_gap_append h, Tracker.advance_append]
  rfl

theorem advance_append_of_scan (tracker : Tracker) (cs more : List Char) :
    tracker.advance (cs ++ more) =
      ((tracker.advance (scan cs).gap).advance (scan cs).lexeme).advance
        ((scan cs).rest ++ more) := by
  simp only [← Tracker.advance_append, ← List.append_assoc, scan_append]

/-- **The tokens of a text are the first of any text that goes on behind it on a new line.** -/
theorem tokensFrom_append {file : String} {tracker : Tracker} {cs : List Char}
    (h : ∀ token ∈ tokensFrom file tracker cs, token.kind.isProper = true) (more : List Char) :
    tokensFrom file tracker (cs ++ '\n' :: more) =
      (tokensFrom file tracker cs).dropLast ++
        tokensFrom file (tracker.advance (cs ++ ['\n'])) more := by
  fun_induction tokensFrom file tracker cs with
  | case1 tracker cs found start stop span token hnil =>
    obtain ⟨kind, hreading, -⟩ := exists_reading_of_isProper (h _ (List.mem_singleton_self _))
    have hcs : (scan cs).gap = cs := by
      have happ := scan_append cs
      rwa [hnil, (scan_of_lexeme_eq_nil hnil).2, List.append_nil, List.append_nil] at happ
    have hgap : ∀ c ∈ cs ++ ['\n'], isIgnored c = true :=
      List.forall_mem_append.2 ⟨hcs ▸ isIgnored_of_mem_gap hreading,
        List.forall_mem_singleton.2 rfl⟩
    rw [List.dropLast_singleton, List.nil_append, ← tokensFrom_gap_append hgap]
    simp
  | case2 tracker cs found start stop span token hne ih =>
    rw [List.forall_mem_cons] at h
    obtain ⟨kind, hreading, -⟩ := exists_reading_of_isProper h.1
    have hscan := scan_append_line_feed hreading hne more
    rw [List.dropLast_cons_of_ne_nil (tokensFrom_ne_nil _ _ _), List.cons_append,
      advance_append_of_scan, ← ih h.2,
      tokensFrom_eq, if_neg (by rw [hscan]; exact hne)]
    simp only [scanSpan, hscan]
    rfl

/-! ## Where tokens stand -/

namespace Tracker

theorem afterReturn_advance_of_ne_nil (tracker : Tracker) {cs : List Char} (hne : cs ≠ [])
    (hcs : cs.getLast? ≠ some '\r') : (tracker.advance cs).afterReturn = false := by
  have hconcat := List.dropLast_concat_getLast hne
  rw [List.getLast?_eq_some_getLast hne] at hcs
  rw [← hconcat, advance_append, advance_cons, advance_nil, afterReturn_step]
  simpa using hcs

/-- A break leads to a later line, unless it is the line feed behind a carriage return. -/
theorem line_lt_advance_of_isBreak {tracker : Tracker} (h : tracker.afterReturn = false) {c : Char}
    (hc : Text.isBreak c = true) (cs : List Char) :
    tracker.position.line < (tracker.advance (c :: cs)).position.line := by
  refine Nat.lt_of_lt_of_le ?_ (line_le_advance (tracker.step c) cs)
  simp only [Text.isBreak, Bool.or_eq_true, decide_eq_true_eq] at hc
  rcases hc with rfl | rfl
  · simp [step, h]
  · simp [step]

theorem line_lt_advance_concat {tracker : Tracker} (h : tracker.afterReturn = false)
    (cs : List Char) : tracker.position.line < (tracker.advance (cs ++ ['\n'])).position.line := by
  induction cs generalizing tracker with
  | nil => exact line_lt_advance h []
  | cons c cs ih =>
    cases hc : Text.isBreak c with
    | true => exact line_lt_advance_of_isBreak h hc _
    | false =>
      rw [← line_step_of_not_isBreak tracker hc]
      refine ih ?_
      rw [afterReturn_step, decide_eq_false_iff_not]
      rintro rfl
      cases hc

/-- A text that does not start with a line feed is followed alike behind a carriage return. -/
theorem position_advance_afterReturn {cs : List Char} (h : cs.head? ≠ some '\n')
    (position : Position) :
    (advance ⟨position, true⟩ cs).position = (advance ⟨position, false⟩ cs).position := by
  cases cs with
  | nil => rfl
  | cons c cs =>
    have hc : c ≠ '\n' := fun hc => h (congrArg some hc)
    simp [step, hc]

theorem line_advance (position : Position) (cs : List Char) :
    (advance ⟨position, false⟩ cs).position.line =
      position.line + (Text.normalizeBreaks cs).count '\n' := by
  fun_induction Text.normalizeBreaks cs generalizing position with
  | case1 => rfl
  | case2 rest ih =>
    rw [List.count_cons_self]
    show (advance ⟨⟨position.line + 1, 0, position.offset + 1 + 1⟩, false⟩ rest).position.line = _
    rw [ih]
    show position.line + 1 + _ = _
    omega
  | case3 c rest hpair ih =>
    rw [advance_cons]
    by_cases hreturn : c = '\r'
    · subst hreturn
      have hhead := Text.head?_ne_of_not_pair hpair rfl
      show (advance ⟨⟨position.line + 1, 0, position.offset + 1⟩, true⟩ rest).position.line = _
      rw [position_advance_afterReturn hhead, ih, if_pos rfl, List.count_cons_self]
      show position.line + 1 + _ = _
      omega
    · rw [if_neg hreturn, List.count_cons]
      by_cases hfeed : c = '\n'
      · subst hfeed
        exact (ih _).trans (by simp; omega)
      · simp only [step, if_neg hfeed, if_neg hreturn]
        exact (ih _).trans (by simp [hfeed])

/-- Behind a carriage return a line starts. -/
theorem column_of_afterReturn (cs : List Char)
    (h : (start.advance cs).afterReturn = true) : (start.advance cs).position.column = 0 := by
  cases hlast : cs.getLast? with
  | none =>
    rw [List.getLast?_eq_none_iff] at hlast
    exact hlast ▸ rfl
  | some c =>
    obtain ⟨ds, rfl⟩ := List.getLast?_eq_some_iff.1 hlast
    rw [advance_append, advance_cons, advance_nil] at h ⊢
    obtain rfl : c = '\r' := by simpa [afterReturn_step] using h
    rfl

theorem column_step_line_feed {tracker : Tracker}
    (h : tracker.afterReturn = true → tracker.position.column = 0) :
    (tracker.step '\n').position.column = 0 := by
  simp only [step, if_true]
  split
  · next hreturn => exact h hreturn
  · rfl

/-- **The line that follows a text is as many lines down as the text has breaks.** -/
theorem advance_start_line_feed (cs : List Char) :
    start.advance (cs ++ ['\n']) =
      ⟨⟨(Text.normalizeBreaks (cs ++ ['\n'])).count '\n', 0, cs.length + 1⟩, false⟩ := by
  have hline : (start.advance (cs ++ ['\n'])).position.line =
      (Text.normalizeBreaks (cs ++ ['\n'])).count '\n' :=
    (line_advance .origin _).trans (Nat.zero_add _)
  have hoffset : (start.advance (cs ++ ['\n'])).position.offset = cs.length + 1 := by
    rw [advance_offset, List.length_append]
    exact Nat.zero_add _
  have hcolumn : (start.advance (cs ++ ['\n'])).position.column = 0 := by
    rw [advance_append, advance_cons, advance_nil]
    exact column_step_line_feed (column_of_afterReturn cs)
  have hreturn : (start.advance (cs ++ ['\n'])).afterReturn = false :=
    afterReturn_advance_of_ne_nil start (by simp) (by simp)
  rw [← hline, ← hcolumn, ← hoffset, ← hreturn]

end Tracker

section

variable {file : String} {tracker : Tracker} {cs : List Char}

theorem stop_line_lt_of_mem_tokensFrom
    (h : ∀ token ∈ tokensFrom file tracker cs, token.kind.isProper = true) :
    ∀ token ∈ (tokensFrom file tracker cs).dropLast,
      token.span.stop.line < (tracker.advance (cs ++ ['\n'])).position.line := by
  fun_induction tokensFrom file tracker cs with
  | case1 => exact List.forall_mem_nil _
  | case2 tracker cs found start stop span token hne ih =>
    rw [List.forall_mem_cons] at h
    obtain ⟨kind, hreading, -⟩ := exists_reading_of_isProper h.1
    have hreturn : stop.afterReturn = false :=
      start.afterReturn_advance_of_ne_nil hne (spells_of_scan hreading hne).getLast?_ne
    rw [List.dropLast_cons_of_ne_nil (tokensFrom_ne_nil _ _ _), List.forall_mem_cons,
      advance_append_of_scan]
    exact ⟨Tracker.line_lt_advance_concat hreturn _, ih h.2⟩

/-- Of two comments in a row the second starts on a later line. -/
def CommentsApart (tokens : List Token) : Prop :=
  tokens.IsChain fun token next => token.kind.comment?.isSome → next.kind.comment?.isSome →
    token.span.stop.line < next.span.start.line

theorem exists_cons_of_spells_comment {lexeme : List Char} {text : String}
    (h : Spells lexeme (.comment text)) : ∃ tail, lexeme = '#' :: tail := by
  generalize hkind : TokenKind.comment text = kind at h
  cases h with
  | comment => exact ⟨_, rfl⟩
  | word =>
    unfold Scan.nameKind at hkind
    split at hkind <;> cases hkind
  | _ => cases hkind

/-- Behind a comment stands the end of its line. -/
theorem headIn_rest_of_comment {text : String} (h : (scan cs).reading = .ok (.comment text)) :
    HeadIn Text.isBreak (scan cs).rest := by
  have hne : (scan cs).lexeme ≠ [] := fun hnil => by
    rw [(scan_of_lexeme_eq_nil hnil).1] at h
    cases h
  obtain ⟨tail, htail⟩ := exists_cons_of_spells_comment (spells_of_scan h hne)
  have hscan : scan cs =
      { Scan.comment (tail ++ (scan cs).rest) with gap := (scan cs).gap } := by
    have happ := scan_append cs
    rw [htail, List.append_assoc] at happ
    calc scan cs = scan ((scan cs).gap ++ ('#' :: tail ++ (scan cs).rest)) := by rw [happ]
      _ = _ := by
        rw [scan_gap_append (isIgnored_of_mem_gap h), List.cons_append,
          scan_cons_of_not_isIgnored rfl]
        simp [Scan.startingWith, Scan.comment, Scan.token, Punctuator.ofChar?]
  rw [hscan]
  exact headIn_dropWhile_not Text.isBreak (tail ++ (scan cs).rest)

theorem exists_reading_of_comment {scan : Scan} {span : Span}
    (h : (scan.kindAt span).comment?.isSome) : ∃ text, scan.reading = .ok (.comment text) := by
  unfold Scan.kindAt at h
  split at h
  · next kind hreading =>
    cases kind with
    | comment text => exact ⟨text, hreading⟩
    | _ => cases h
  · cases h

theorem line_lt_of_comment {tracker : Tracker} (h : tracker.afterReturn = false)
    (hcs : HeadIn Text.isBreak cs) (hne : (scan cs).lexeme ≠ []) :
    tracker.position.line < (tracker.advance (scan cs).gap).position.line := by
  cases cs with
  | nil => exact absurd rfl hne
  | cons c cs =>
    have hbreak : Text.isBreak c = true := hcs c rfl
    have hignored : isIgnored c = true := by
      simp only [Text.isBreak, Bool.or_eq_true, decide_eq_true_eq] at hbreak
      rcases hbreak with rfl | rfl <;> rfl
    have hgap : (scan (c :: cs)).gap = c :: (scan cs).gap := by
      have hscan := @scan_gap_append [c] (List.forall_mem_singleton.2 hignored) cs
      rw [List.singleton_append] at hscan
      rw [hscan]
      rfl
    rw [hgap]
    exact Tracker.line_lt_advance_of_isBreak h hbreak _

/-- Behind a comment the next token starts on a later line. -/
theorem line_lt_behind_comment_tokensFrom :
    (tokensFrom file tracker cs).IsChain fun token next => token.kind.comment?.isSome →
      next.kind ≠ .endOfText → token.span.stop.line < next.span.start.line := by
  fun_induction tokensFrom file tracker cs with
  | case1 => exact .singleton _
  | case2 tracker cs found start stop span token hne ih =>
    rw [List.isChain_cons]
    refine ⟨fun next hnext hcomment hend => ?_, ih⟩
    obtain ⟨text, hreading⟩ := exists_reading_of_comment hcomment
    have hreturn : stop.afterReturn = false :=
      start.afterReturn_advance_of_ne_nil hne (spells_of_scan hreading hne).getLast?_ne
    rw [tokensFrom_eq] at hnext
    obtain rfl := Option.some.inj hnext
    refine line_lt_of_comment hreturn (headIn_rest_of_comment hreading) fun hnil => hend ?_
    show (scan found.rest).kindAt _ = _
    rw [Scan.kindAt, (scan_of_lexeme_eq_nil hnil).1]

theorem commentsApart_tokensFrom : CommentsApart (tokensFrom file tracker cs) :=
  line_lt_behind_comment_tokensFrom.imp fun _ next hlines hcomment hnext =>
    hlines hcomment fun hend => by
      rw [hend] at hnext
      cases hnext

end

end SchemaMerge
