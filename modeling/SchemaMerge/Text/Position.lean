/-!
# Lines, positions and spans

A line ends before a line feed or a carriage return, or at the end of the text. A carriage return
with a line feed behind it is one break.

A position counts lines, columns and characters from zero. A span is the stretch of one file from a
first position up to, and not including, a second one. Messages show a span by its file and the line
and column of its start, both counted from one.

A `Tracker` follows a text character by character, as `consume` does. It breaks the line where the
text does, so it remembers whether the last character was a carriage return. `Text.line?` looks a
line up again (`source_line`).

## Results

* `Tracker.advance_append`: following two texts in a row is following their concatenation.
* `Tracker.advance_offset`: the offset grows by the number of characters.
-/

namespace SchemaMerge

/-! ## Lines -/

namespace Text

/-- The two characters that break a line. -/
def isBreak (c : Char) : Bool := c = '\n' || c = '\r'

/-- The text with every line break written as one line feed. -/
def normalizeBreaks : List Char → List Char
  | [] => []
  | '\r' :: '\n' :: rest => '\n' :: normalizeBreaks rest
  | c :: rest => (if c = '\r' then '\n' else c) :: normalizeBreaks rest

/-- What follows the first line break, if there is one. -/
def afterBreak? : List Char → Option (List Char)
  | [] => none
  | '\r' :: '\n' :: rest => some rest
  | c :: rest => if isBreak c then some rest else afterBreak? rest

/-- The line of the given number, counted from zero, without its break. -/
def line? (cs : List Char) : Nat → Option (List Char)
  | 0 => some (cs.takeWhile fun c => !isBreak c)
  | n + 1 => (afterBreak? cs).bind fun rest => line? rest n

end Text

/-! ## Positions and spans -/

/-- A place in a text, all three counts from zero. -/
structure Position where
  line : Nat
  column : Nat
  offset : Nat
deriving DecidableEq, Inhabited

/-- The start of every text. -/
def Position.origin : Position := ⟨0, 0, 0⟩

/-- The stretch of `file` from `start` up to `stop`. -/
structure Span where
  file : String
  start : Position
  stop : Position
deriving DecidableEq, Inhabited

/-- A span as messages show it: file, line and column of its start. -/
def Span.text (span : Span) : String :=
  span.file ++ ":" ++ toString (span.start.line + 1) ++ ":" ++ toString (span.start.column + 1)

/-! ## Following a text -/

/-- A position together with what decides whether a line feed breaks the line. -/
structure Tracker where
  position : Position
  afterReturn : Bool
deriving DecidableEq, Inhabited

namespace Tracker

/-- The tracker at the start of a text. -/
def start : Tracker := ⟨.origin, false⟩

/-- The tracker one character further. -/
def step (tracker : Tracker) (c : Char) : Tracker :=
  let here := tracker.position
  if c = '\n' then
    if tracker.afterReturn then ⟨⟨here.line, here.column, here.offset + 1⟩, false⟩
    else ⟨⟨here.line + 1, 0, here.offset + 1⟩, false⟩
  else if c = '\r' then ⟨⟨here.line + 1, 0, here.offset + 1⟩, true⟩
  else ⟨⟨here.line, here.column + 1, here.offset + 1⟩, false⟩

/-- The tracker behind a text. -/
def advance (tracker : Tracker) (cs : List Char) : Tracker := cs.foldl step tracker

@[simp] theorem advance_nil (tracker : Tracker) : tracker.advance [] = tracker := rfl

@[simp] theorem advance_cons (tracker : Tracker) (c : Char) (cs : List Char) :
    tracker.advance (c :: cs) = (tracker.step c).advance cs := rfl

/-- A text can be followed piece by piece. -/
theorem advance_append (tracker : Tracker) (cs ds : List Char) :
    tracker.advance (cs ++ ds) = (tracker.advance cs).advance ds := by
  simp [advance]

theorem step_offset (tracker : Tracker) (c : Char) :
    (tracker.step c).position.offset = tracker.position.offset + 1 := by
  unfold step
  split
  · split <;> rfl
  · split <;> rfl

/-- Offsets count characters, whatever these are. -/
theorem advance_offset (tracker : Tracker) (cs : List Char) :
    (tracker.advance cs).position.offset = tracker.position.offset + cs.length := by
  induction cs generalizing tracker with
  | nil => rfl
  | cons c cs ih => simp only [advance_cons, ih, step_offset, List.length_cons]; omega

end Tracker

end SchemaMerge
