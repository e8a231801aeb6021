import SchemaMerge.Text.Escape

/-!
# Indentation patterns

One level of indentation is a number of spaces or tabs, written as the number and then `s` or `t`:
`4s` is four spaces. Without a number it is one (`from_str`). The number fits in 64 bits, but no
text has that many bytes: a pattern can be read that stands for no text (`unit`).
-/

namespace SchemaMerge

namespace Text

/-- The most bytes that a text can have, `2 ^ 63 - 1`. -/
def maxBytes : Nat := 9223372036854775807

/-- The number that digits write. -/
def decimal? (digits : List Char) : Option Nat :=
  if digits.isEmpty || !digits.all Char.isDigit then none
  else some (Nat.ofDigitChars 10 digits 0)

theorem decimal?_repr (n : Nat) : decimal? n.repr.toList = some n := by
  have hdigits : (Nat.toDigits 10 n).all Char.isDigit := by
    simp only [List.all_eq_true]
    exact fun c hc => Nat.isDigit_of_mem_toDigits (by decide) (by decide) hc
  have hne : Nat.toDigits 10 n ≠ [] := Nat.toDigits_ne_nil
  have hvalue : Nat.ofDigitChars 10 (Nat.toDigits 10 n) 0 = n :=
    Nat.ofDigitChars_toDigits (by decide) (by decide)
  simp [decimal?, Nat.repr, hdigits, hne, hvalue]

end Text

/-- What a level of indentation is made of. -/
inductive IndentKind
  | space | tab
deriving DecidableEq, Inhabited

namespace IndentKind

/-- The letter for the kind. -/
def letter : IndentKind → Char
  | .space => 's'
  | .tab => 't'

/-- The character that the kind stands for. -/
def char : IndentKind → Char
  | .space => ' '
  | .tab => '\t'

/-- The kind that a letter stands for. -/
def ofLetter? (c : Char) : Option IndentKind :=
  if c = 's' then some .space else if c = 't' then some .tab else none

end IndentKind

/-- One level of indentation. -/
structure IndentPattern where
  count : Nat
  kind : IndentKind
  /-- The count fits in 64 bits. -/
  count_lt : count < UInt64.size
deriving DecidableEq

/-- Why a text is no indentation pattern. -/
inductive IndentFault
  /-- Nothing but blank characters. -/
  | empty
  /-- The last character names no kind. -/
  | unknownKind (letter : Char)
  /-- What stands before the kind is no number that fits. -/
  | invalidCount (text : String)
deriving DecidableEq, Inhabited

/-- The fault in words. -/
def IndentFault.message : IndentFault → String
  | .empty => "indent pattern is empty; expected e.g. `4s` or `1t`"
  | .unknownKind letter =>
    "unknown indent kind `" ++ letter.toString ++ "`; expected `s` (space) or `t` (tab)"
  | .invalidCount text => "invalid indent count `" ++ text ++ "`"

namespace IndentPattern

/-- The pattern if none is given: four spaces. -/
def standard : IndentPattern := ⟨4, .space, by decide⟩

/-- The number before the kind, which may have a plus sign; one if there is none. -/
def count? : List Char → Option Nat
  | [] => some 1
  | '+' :: digits => Text.decimal? digits
  | digits => Text.decimal? digits

/-- The pattern with a count, if that fits. -/
def ofCount? (count : List Char) (kind : IndentKind) : Except IndentFault IndentPattern :=
  match count? count with
  | some n =>
    if h : n < UInt64.size then .ok ⟨n, kind, h⟩ else .error (.invalidCount (String.ofList count))
  | none => .error (.invalidCount (String.ofList count))

/-- The pattern that a text writes. Blank characters at its ends do not count. -/
def ofText (text : String) : Except IndentFault IndentPattern :=
  let trimmed := Text.trim Text.isBlank text.toList
  match trimmed.getLast? with
  | none => .error .empty
  | some letter =>
    match IndentKind.ofLetter? letter with
    | none => .error (.unknownKind letter)
    | some kind => ofCount? trimmed.dropLast kind

/-- The pattern as it is written. -/
def text (pattern : IndentPattern) : String := pattern.count.repr ++ pattern.kind.letter.toString

/-- The text of one level. There is none for a count of more bytes than a text can have. -/
def unit? (pattern : IndentPattern) : Option String :=
  if pattern.count ≤ Text.maxBytes then
    some (String.ofList (List.replicate pattern.count pattern.kind.char))
  else none

end IndentPattern

end SchemaMerge
