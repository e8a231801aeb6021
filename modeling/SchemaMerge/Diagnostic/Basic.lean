import SchemaMerge.Diagnostic.Cause
import SchemaMerge.Text.Position

/-!
# Diagnostics

A diagnostic says why an operation failed and where: its cause, a message, the span at fault, for a
conflict also the span it conflicts with, and notes that explain it further (`SdlError`). In one
line a conflict is its message alone, since that cites both places (`format_oneline`).
-/

namespace SchemaMerge

/-- A general note, or one that says how to mend the fault. -/
inductive NoteKind
  | general | help
deriving DecidableEq, Inhabited

/-- A remark below a diagnostic, possibly about a span of its own. -/
structure Note where
  kind : NoteKind
  message : String
  span : Option Span
deriving DecidableEq, Inhabited

/-- A general note on a span. -/
def Note.about (message : String) (span : Span) : Note := ⟨.general, message, some span⟩

/-- A note that says how to mend the fault. -/
def Note.helping (message : String) : Note := ⟨.help, message, none⟩

/-- A failure, explained. -/
structure Diagnostic where
  cause : Cause
  message : String
  span : Span
  related : Option Span
  notes : List Note
deriving DecidableEq, Inhabited

namespace Diagnostic

/-- A diagnostic without notes. -/
def plain (cause : Cause) (message : String) (span : Span) : Diagnostic :=
  ⟨cause, message, span, none, []⟩

/-- A conflict with something that stands at `related`. -/
def conflicting (cause : ConflictCause) (message : String) (span related : Span) : Diagnostic :=
  ⟨.conflict cause, message, span, some related,
    [Note.about ("previously defined at " ++ related.text) related]⟩

/-- The diagnostic with one more note on how to mend the fault. -/
def addHelp (diagnostic : Diagnostic) (message : String) : Diagnostic :=
  { diagnostic with notes := diagnostic.notes ++ [Note.helping message] }

/-- The diagnostic on one line. A conflict's message names its spans itself. -/
def oneLine (diagnostic : Diagnostic) : String :=
  match diagnostic.cause with
  | .conflict _ => diagnostic.message
  | _ => diagnostic.span.text ++ ": " ++ diagnostic.message

end Diagnostic

end SchemaMerge
