import SchemaMerge.Proofs.Reading.Blanks
import SchemaMerge.Proofs.Token.Lines

/-!
# Diagnostics show what they are about

A text that forms no document fails at one of its tokens, and every line that a token starts on is
found. So the detailed form of the diagnostic shows the line at fault, and the carets stand under
the token (`detailed_ofText`). That is so if rows can be padded to the columns of the token and of
all places in the file that the notes are about: a note on a place farther right leaves no detailed
form, however near the token is (`detailed?_openBrace`).
-/

namespace SchemaMerge

namespace Excerpt

/-! ## Rows -/

/-- What stands in front of the line in its row. -/
def label (excerpt : Excerpt) : String :=
  "".pushn ' ' (excerpt.gutter - excerpt.number.length) ++ excerpt.number ++ " | "

/-- What stands under the label in the row with the marks. -/
def blank (excerpt : Excerpt) : String := excerpt.emptyMargin ++ " "

/-- The line and the marks under it start in the same column. -/
theorem length_label (excerpt : Excerpt) : excerpt.label.length = excerpt.blank.length := by
  have hnumber : excerpt.number.length ≤ excerpt.gutter := Nat.le_max_left ..
  have hbar : " | ".length = " |".length + " ".length := by decide
  simp only [label, blank, emptyMargin, String.length_append, String.length_pushn, hbar]
  omega

theorem numberedRow_eq (excerpt : Excerpt) :
    excerpt.numberedRow = excerpt.label ++ String.ofList excerpt.line ++ "\n" := rfl

theorem markRow?_eq {column : Nat} (h : column ≤ maxPadding) (excerpt : Excerpt) (mark : String) :
    excerpt.markRow? column mark =
      some (excerpt.blank ++ "".pushn ' ' column ++ mark ++ "\n") := if_pos h

end Excerpt

/-- What the detailed form shows of a span that the lines of the text show. -/
theorem Span.ShownIn.exists_snippet? {text : String} {span : Span}
    (h : span.ShownIn text.toList) :
    ∃ line, Text.line? text.toList span.start.line = some line ∧
      let excerpt : Excerpt := ⟨toString (span.start.line + 1), line⟩
      span.start.column ≤ Excerpt.maxPadding →
        span.snippet? (some text) = some (excerpt.emptyMargin ++ "\n" ++
          (excerpt.label ++ String.ofList line ++ "\n") ++
          (excerpt.blank ++ "".pushn ' ' span.start.column ++ "".pushn '^'
            (if span.stop.offset = span.start.offset then 1 else
              (Text.firstLine (text.toList.extract span.start.offset span.stop.offset)).length) ++
                "\n")) := by
  obtain ⟨line, hline, -, -⟩ := h.start
  refine ⟨line, hline, fun hcolumn => ?_⟩
  simp only [Span.snippet?, Excerpt.ofSpan?, hline, Excerpt.numberedRow_eq,
    Excerpt.markRow?_eq hcolumn, h.carets line hline, Option.bind_eq_bind, Option.bind_some,
    Option.pure_def, Option.map_some]

/-! ## Notes -/

theorem exists_mapM_eq_some {α β : Type} {f : α → Option β} {items : List α}
    (h : ∀ item ∈ items, ∃ result, f item = some result) :
    ∃ results, items.mapM f = some results := by
  induction items with
  | nil => exact ⟨[], rfl⟩
  | cons item items ih =>
    rw [List.forall_mem_cons] at h
    obtain ⟨result, hresult⟩ := h.1
    obtain ⟨results, hresults⟩ := ih h.2
    exact ⟨result :: results, by simp [hresult, hresults]⟩

theorem mapM_eq_none {α β : Type} {f : α → Option β} {items : List α} {item : α}
    (hmem : item ∈ items) (h : f item = none) : items.mapM f = none := by
  induction items with
  | nil => cases hmem
  | cons first items ih =>
    rw [List.mapM_cons]
    rcases List.mem_cons.1 hmem with rfl | hmem
    · simp [h]
    · simp [ih hmem]

/-- A note that cannot be shown leaves no detailed form. -/
theorem Diagnostic.detailed?_eq_none {e : Diagnostic} {note : Note} {text : Option String}
    (hmem : note ∈ e.notes) (h : note.detailed? e.span.file text = none) :
    e.detailed? text = none := by
  rw [detailed?, mapM_eq_none hmem h]
  cases e.span.snippet? text <;> rfl

/-- A note can be shown if rows can be padded to the place in the file that it is about. -/
theorem Note.exists_detailed? {file : String} {note : Note}
    (h : ∀ span ∈ note.span, span.file = file → span.start.column ≤ Excerpt.maxPadding)
    (text : Option String) : ∃ shown, note.detailed? file text = some shown := by
  unfold Note.detailed? Note.snippet?
  cases hspan : note.span with
  | none => exact ⟨_, rfl⟩
  | some span =>
    dsimp only
    split
    · next hfile =>
      unfold Span.noteSnippet?
      cases Excerpt.ofSpan? text span with
      | none => exact ⟨_, rfl⟩
      | some excerpt =>
        simp only [Excerpt.markRow?_eq (h span hspan hfile)]
        exact ⟨_, rfl⟩
    · exact ⟨_, rfl⟩

/-- **Positions and snippets agree.** The lines of a text show each of its tokens where it stands.
The detailed form of a failure to read the text shows the line of the token at fault, and under it,
from the column of the token on, as many carets as the token has characters on that line, or one for
an empty token; provided that rows can be padded to the column of the token and to those of the
places in the file that the notes are about. -/
theorem detailed_ofText (file text : String) :
    (∀ token ∈ Token.ofText file text, ∃ line,
        Text.line? text.toList token.span.start.line = some line ∧
        token.span.start.column ≤ line.length ∧
        line.drop token.span.start.column =
          Text.firstLine (text.toList.drop token.span.start.offset)) ∧
      ∀ e, Document.ofText file text = .error e →
        ∃ token ∈ Token.ofText file text, e.span = token.span ∧
          ∃ line, Text.line? text.toList token.span.start.line = some line ∧
            let excerpt : Excerpt := ⟨toString (token.span.start.line + 1), line⟩
            let carets := if token.span.stop.offset = token.span.start.offset then 1 else
              (Text.firstLine
                (text.toList.extract token.span.start.offset token.span.stop.offset)).length
            excerpt.label.length = excerpt.blank.length ∧
            (e.span.start.column ≤ 65535 →
              (∀ note ∈ e.notes, ∀ span ∈ note.span, span.file = e.span.file →
                span.start.column ≤ 65535) →
              ∃ notes, e.notes.mapM (Note.detailed? e.span.file (some text)) = some notes ∧
                e.detailed? (some text) =
                  some ("error: " ++ e.message ++ "\n  --> " ++ e.span.text ++ "\n" ++
                    (excerpt.emptyMargin ++ "\n" ++
                      (excerpt.label ++ String.ofList line ++ "\n") ++
                      (excerpt.blank ++ "".pushn ' ' token.span.start.column ++
                        "".pushn '^' carets ++ "\n")) ++
                    String.join notes)) := by
  have hshown : ∀ token ∈ Token.ofText file text, token.span.ShownIn text.toList :=
    shownIn_of_mem_tokensFrom (Tracker.before_start text.toList)
  refine ⟨fun token hmem => (hshown token hmem).start, fun e h => ?_⟩
  obtain ⟨token, hmem, hspan⟩ := exists_span_of_ofText_eq_error h
  obtain ⟨line, hline, hsnippet⟩ := (hshown token hmem).exists_snippet?
  refine ⟨token, hmem, hspan, line, hline, Excerpt.length_label _, fun hcolumn hnotes => ?_⟩
  obtain ⟨notes, hmapped⟩ := exists_mapM_eq_some fun note hnote =>
    Note.exists_detailed? (hnotes note hnote) (some text)
  refine ⟨notes, hmapped, ?_⟩
  rw [Diagnostic.detailed?, hmapped, hspan, hsnippet (hspan ▸ hcolumn)]
  rfl

/-- A number for a type, between line breaks of two styles. -/
theorem detailed_ofText_number :
    let text := "type A \x7b\r\n  b: 12\r\x7d"
    let e := Diagnostic.unexpectedToken ["type name"]
      ⟨.integer "12", ⟨"a.graphql", ⟨1, 5, 15⟩, ⟨1, 7, 17⟩⟩⟩
    Document.ofText "a.graphql" text = .error e ∧
      e.detailed? (some text) =
        some ("error: expected type name, found `12`\n  --> a.graphql:2:6\n" ++
          "   |\n 2 |   b: 12\n   |      ^^\n") ∧
      ∃ token ∈ Token.ofText "a.graphql" text, e.span = token.span ∧
        ∃ line, Text.line? text.toList token.span.start.line = some line ∧
          ∃ notes, e.notes.mapM (Note.detailed? e.span.file (some text)) = some notes := by
  intro text e
  have herror : Document.ofText "a.graphql" text = .error e := by decide +kernel
  have hcolumn : e.span.start.column ≤ 65535 := by decide
  have hnotes : e.notes = [] := rfl
  obtain ⟨token, hmem, hspan, line, hline, -, hdetailed⟩ :=
    (detailed_ofText "a.graphql" text).2 e herror
  obtain ⟨notes, hmapped, -⟩ := hdetailed hcolumn (by simp [hnotes])
  exact ⟨herror, by decide +kernel, token, hmem, hspan, line, hline, notes, hmapped⟩

/-! ## A note out of reach -/

/-- A type whose brace stands behind some spaces and is not closed. -/
def openBrace (spaces : Nat) : String :=
  String.ofList (['t', 'y', 'p', 'e', ' ', 'A'] ++ (List.replicate spaces ' ' ++ ['{', '\n']))

theorem advance_spaces (line column offset count : Nat) :
    Tracker.advance ⟨⟨line, column, offset⟩, false⟩ (List.replicate count ' ') =
      ⟨⟨line, column + count, offset + count⟩, false⟩ := by
  induction count generalizing column offset with
  | zero => rfl
  | succ count ih =>
    rw [List.replicate_succ, Tracker.advance_cons, Tracker.step]
    simp only [Char.reduceEq, if_false, ih]
    congr 2 <;> omega

/-- The tokens of the text, the last of them its end on the next line. -/
theorem ofText_openBrace (file : String) (spaces : Nat) :
    Token.ofText file (openBrace (spaces + 1)) =
      [⟨.keyword .type, ⟨file, ⟨0, 0, 0⟩, ⟨0, 4, 4⟩⟩⟩, ⟨.name "A", ⟨file, ⟨0, 5, 5⟩, ⟨0, 6, 6⟩⟩⟩,
        ⟨.punctuator .braceOpen,
          ⟨file, ⟨0, spaces + 7, spaces + 7⟩, ⟨0, spaces + 8, spaces + 8⟩⟩⟩,
        ⟨.endOfText, ⟨file, ⟨1, 0, spaces + 9⟩, ⟨1, 0, spaces + 9⟩⟩⟩] := by
  have hkeyword : Spells ['t', 'y', 'p', 'e'] (.keyword .type) := by
    have hkind : Scan.nameKind (String.ofList ['t', 'y', 'p', 'e']) = .keyword .type := by
      decide +kernel
    exact hkind ▸ .word rfl (List.all_eq_true.1 rfl)
  have hname : Spells ['A'] (.name "A") := by
    have hkind : Scan.nameKind (String.ofList ['A']) = .name "A" := by decide +kernel
    exact hkind ▸ .word rfl (List.forall_mem_nil _)
  have hbrace : Spells ['{'] (.punctuator .braceOpen) := .mark rfl
  have hgap : ∀ c ∈ List.replicate (spaces + 1) ' ', isIgnored c = true :=
    fun c hc => List.eq_of_mem_replicate hc ▸ rfl
  have hadvance : Tracker.advance ⟨⟨0, 6, 6⟩, false⟩ (List.replicate (spaces + 1) ' ') =
      ⟨⟨0, spaces + 7, spaces + 7⟩, false⟩ := by
    rw [advance_spaces]
    congr 2 <;> omega
  -- The tokens from the end of the line on, from the brace on, and from the name on.
  have hend : tokensFrom file ⟨⟨0, spaces + 8, spaces + 8⟩, false⟩ ['\n'] =
      [⟨.endOfText, ⟨file, ⟨1, 0, spaces + 9⟩, ⟨1, 0, spaces + 9⟩⟩⟩] := by
    rw [tokensFrom_eq]
    rfl
  have hlast : tokensFrom file ⟨⟨0, 6, 6⟩, false⟩
      (List.replicate (spaces + 1) ' ' ++ (['{'] ++ ['\n'])) = _ :=
    tokensFrom_spells hgap hbrace trivial file _
  rw [hadvance] at hlast
  have hdelimited : Delimited (List.replicate (spaces + 1) ' ' ++ (['{'] ++ ['\n'])) := by
    rintro _ ⟨⟩
    rfl
  have hmiddle : tokensFrom file ⟨⟨0, 4, 4⟩, false⟩
      ([' '] ++ (['A'] ++ (List.replicate (spaces + 1) ' ' ++ (['{'] ++ ['\n'])))) = _ :=
    tokensFrom_spells (List.forall_mem_singleton.2 rfl) hname hdelimited file _
  calc Token.ofText file (openBrace (spaces + 1))
      = tokensFrom file .start ([] ++ (['t', 'y', 'p', 'e'] ++ ([' '] ++ (['A'] ++
          (List.replicate (spaces + 1) ' ' ++ (['{'] ++ ['\n'])))))) := by
        rw [Token.ofText, openBrace, String.toList_ofList]
        rfl
    _ = _ := tokensFrom_spells (List.forall_mem_nil _) hkeyword (by rintro _ ⟨⟩; rfl) file _
    _ = _ := congrArg (List.cons _) (hmiddle.trans (congrArg (List.cons _)
        (hlast.trans (congrArg (List.cons _) hend))))

/-- **A note out of reach hides the token at fault.** The missing brace is noticed at the start of a
line, but the brace that it should close stands too far to the right. -/
theorem detailed?_openBrace :
    ∃ e, Document.ofText "a.graphql" (openBrace 65536) = .error e ∧ e.span.start.column = 0 ∧
      e.detailed? (some (openBrace 65536)) = none := by
  let brace : Span := ⟨"a.graphql", ⟨0, 65542, 65542⟩, ⟨0, 65543, 65543⟩⟩
  let note := Note.about "`\x7b` opened here" brace
  let missing := Diagnostic.unexpectedEnd ["field name", "`\x7d`"]
    ⟨"a.graphql", ⟨1, 0, 65544⟩, ⟨1, 0, 65544⟩⟩
  have herror : Document.ofText "a.graphql" (openBrace 65536) =
      .error { missing with notes := [note] } := by
    rw [Document.ofText, ofText_openBrace "a.graphql" 65535]
    decide +kernel
  have hnote (text : String) : note.detailed? "a.graphql" (some text) = none := by
    have hcolumn : ¬brace.start.column ≤ Excerpt.maxPadding := by decide
    simp only [Note.detailed?, Note.snippet?, note, Note.about, Span.noteSnippet?, Excerpt.ofSpan?,
      Text.line?, Excerpt.markRow?, brace, Option.bind_eq_bind, Option.bind_some, Option.pure_def,
      if_true]
    rw [if_neg hcolumn]
    rfl
  exact ⟨_, herror, rfl, Diagnostic.detailed?_eq_none (List.mem_singleton_self note) (hnote _)⟩

end SchemaMerge
