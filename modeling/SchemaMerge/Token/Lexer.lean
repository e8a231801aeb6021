import SchemaMerge.Token.Scan

/-!
# The tokens of a text

A text is scanned token by token, each with the span it covers (`next`). Characters that form no
token become a fault token (`lex_invalid_character`), and scanning goes on behind them, so every
text has a token list. It ends with the token for the end of the text.

## Results

* `tokensFrom_eq`: the first token, and the tokens of the rest unless the text ends there.
-/

namespace SchemaMerge

/-! ## Faults, explained -/

/-- What is wrong with the characters at fault. -/
def LexicalCause.message : LexicalCause → String
  | .unterminatedString => "Unterminated string literal"
  | .unterminatedBlockString => "Unterminated block string"
  | .invalidAdjacency after found =>
    "Invalid token after `" ++ after ++ "`: unexpected `" ++ found.toString ++ "`"
  | .unexpectedCharacter found => "Unexpected character " ++ Text.describe found

/-- Where the faulty token began and how to mend it. -/
def LexicalCause.notes (span : Span) : LexicalCause → List Note
  | .unterminatedString =>
    [.about "String started here" span,
      .helping ("Add a closing `\"`, or use a block string (`\"\"\"`) for " ++
        "multi-line text")]
  | .unterminatedBlockString =>
    [.about "Block string started here" span, .helping "Add closing `\"\"\"`"]
  | .invalidAdjacency _ _ => [.helping "Separate the value from what follows with whitespace"]
  | .unexpectedCharacter _ => []

/-- The token that a scan has found at a span. -/
def Scan.kindAt (scan : Scan) (span : Span) : TokenKind :=
  match scan.reading with
  | .ok kind => kind
  | .error cause => .fault cause cause.message (cause.notes span)

/-! ## Scanning a text -/

/-- The tokens of the rest of a text, which starts where the tracker stands. -/
def tokensFrom (file : String) (tracker : Tracker) (cs : List Char) : List Token :=
  let found := scan cs
  let start := tracker.advance found.gap
  let stop := start.advance found.lexeme
  let span : Span := ⟨file, start.position, stop.position⟩
  let token : Token := ⟨found.kindAt span, span⟩
  if found.lexeme = [] then [token] else token :: tokensFrom file stop found.rest
termination_by cs.length
decreasing_by exact scan_rest_lt ‹_›

/-- The tokens of a text, the last of which is its end. -/
def Token.ofText (file text : String) : List Token := tokensFrom file .start text.toList

/-- The span of the first token of the rest of a text. -/
def scanSpan (file : String) (tracker : Tracker) (cs : List Char) : Span :=
  let start := tracker.advance (scan cs).gap
  ⟨file, start.position, (start.advance (scan cs).lexeme).position⟩

theorem tokensFrom_eq (file : String) (tracker : Tracker) (cs : List Char) :
    tokensFrom file tracker cs =
      ⟨(scan cs).kindAt (scanSpan file tracker cs), scanSpan file tracker cs⟩ ::
        if (scan cs).lexeme = [] then []
        else tokensFrom file ((tracker.advance (scan cs).gap).advance (scan cs).lexeme)
          (scan cs).rest := by
  rw [tokensFrom]
  split <;> simp_all [scanSpan]

end SchemaMerge
