import SchemaMerge.Diagnostic.Basic

/-!
# Diagnostics beside the text they are about

The detailed form of a diagnostic (`format_detailed`) shows the line at fault with carets under the
span, and under each note on a span of the same file that line with a dash under its start. Line
numbers stand in a gutter of at least two columns. Without the text, or where the text has no such
line, only the messages remain.

A row can be padded up to a fixed column and no farther. A mark behind that column breaks the
formatting off, and then there is no detailed form at all.
-/

namespace SchemaMerge

/-- A line of a text, ready to be shown. -/
structure Excerpt where
  number : String
  line : List Char

namespace Excerpt

/-- The line of the text on which the span starts, if the text is given. -/
def ofSpan? (text : Option String) (span : Span) : Option Excerpt := do
  let line ← Text.line? (← text).toList span.start.line
  return ⟨toString (span.start.line + 1), line⟩

/-- The number of columns that line numbers take. -/
def gutter (excerpt : Excerpt) : Nat := max excerpt.number.length 2

/-- The start of a row that has no line number. -/
def emptyMargin (excerpt : Excerpt) : String := "".pushn ' ' excerpt.gutter ++ " |"

/-- The row that holds the line itself. -/
def numberedRow (excerpt : Excerpt) : String :=
  "".pushn ' ' (excerpt.gutter - excerpt.number.length) ++ excerpt.number ++ " | " ++
    String.ofList excerpt.line ++ "\n"

/-- The farthest column that a row can be padded to: widths are numbers of 16 bits. -/
def maxPadding : Nat := 65535

/-- The row that marks the line from a column on, if it can be padded so far. -/
def markRow? (excerpt : Excerpt) (column : Nat) (mark : String) : Option String :=
  if column ≤ maxPadding then
    some (excerpt.emptyMargin ++ " " ++ "".pushn ' ' column ++ mark ++ "\n")
  else none

end Excerpt

/-- The number of carets under a span: its characters on its first line, and at least one. -/
def Span.caretCount (span : Span) (line : List Char) : Nat :=
  let stop := if span.stop.line = span.start.line then span.stop.column else line.length
  if span.start.column < stop then stop - span.start.column else 1

/-- The line at fault with carets under the span; nothing if there is no such line. -/
def Span.snippet? (text : Option String) (span : Span) : Option String :=
  match Excerpt.ofSpan? text span with
  | none => some ""
  | some excerpt =>
    let carets := "".pushn '^' (span.caretCount excerpt.line)
    (excerpt.markRow? span.start.column carets).map fun marks =>
      excerpt.emptyMargin ++ "\n" ++ excerpt.numberedRow ++ marks

/-- The line a note is about with a dash under the start of its span; nothing if there is no such
line. -/
def Span.noteSnippet? (text : Option String) (span : Span) : Option String :=
  match Excerpt.ofSpan? text span with
  | none => some ""
  | some excerpt =>
    (excerpt.markRow? span.start.column "-").map fun marks =>
      "     " ++ excerpt.numberedRow ++ "     " ++ marks

/-- The word before a note. -/
def NoteKind.label : NoteKind → String
  | .general => "note"
  | .help => "help"

/-- The line that a note is about, if the note is on a span in `file`. -/
def Note.snippet? (file : String) (text : Option String) (note : Note) : Option String :=
  match note.span with
  | none => some ""
  | some span => if span.file = file then span.noteSnippet? text else some ""

/-- A note of a diagnostic on a span in `file`, with the line it is about if the text shows it. -/
def Note.detailed? (file : String) (text : Option String) (note : Note) : Option String :=
  (note.snippet? file text).map fun shown =>
    "   = " ++ note.kind.label ++ ": " ++ note.message ++ "\n" ++ shown

/-- The diagnostic over several lines, beside the text of its file if that is given. There is none
if a mark in it stands behind the column that rows can be padded to. -/
def Diagnostic.detailed? (diagnostic : Diagnostic) (text : Option String) : Option String := do
  let span := diagnostic.span
  let shown ← span.snippet? text
  let notes ← diagnostic.notes.mapM (Note.detailed? span.file text)
  return "error: " ++ diagnostic.message ++ "\n  --> " ++ span.text ++ "\n" ++ shown ++
    String.join notes

end SchemaMerge
