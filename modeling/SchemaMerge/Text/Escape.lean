import SchemaMerge.Text.Extending
import SchemaMerge.Text.Unmarked

/-!
# Characters made visible

A character is blank if it has Unicode's property `White_Space`, and it shows if it leaves a mark in
a place of its own. A character that would not show in a message is written as an escape: the usual
letter for tab, line feed and carriage return, and otherwise its code point in braces. A quoted text
stands between double quotes, with such escapes in it and others for quotes and backslashes.
Messages name characters by the former (`describe_char`) and paths by the latter.
-/

namespace SchemaMerge.Text

/-! ## Blank characters -/

/-- The characters of the property `White_Space`, as inclusive ranges of code points. -/
def blankRanges : List (Nat × Nat) :=
  [(0x09, 0x0D), (0x20, 0x20), (0x85, 0x85), (0xA0, 0xA0), (0x1680, 0x1680), (0x2000, 0x200A),
   (0x2028, 0x2029), (0x202F, 0x202F), (0x205F, 0x205F), (0x3000, 0x3000)]

/-- Whether a character has the property `White_Space`. -/
def isBlank (c : Char) : Bool :=
  blankRanges.any fun range => range.1 ≤ c.toNat && c.toNat ≤ range.2

/-- The text without the characters of `p` at both its ends. -/
def trim (p : Char → Bool) (cs : List Char) : List Char :=
  ((cs.dropWhile p).reverse.dropWhile p).reverse

/-! ## Characters that show -/

/-- Whether a code point lies in one of the ranges. -/
def inRanges (n : Nat) (ranges : List (Nat × Nat)) : Bool :=
  ranges.any fun range => range.1 ≤ n && n ≤ range.2

/-- Whether the character shows when it stands alone. -/
def isVisible (c : Char) : Bool :=
  !inRanges c.toNat unmarkedRanges && !inRanges c.toNat extendingRanges

/-! ## Escapes -/

/-- The hexadecimal digits of a number, with the given letters from ten on. -/
def hexDigits (upper : Bool) (n : Nat) : String :=
  let digits := String.ofList (Nat.toDigits 16 n)
  if upper then digits.toUpper else digits

/-- A code point as an escape, in lower case and without leading zeros. -/
def codePointEscape (c : Char) : String := "\\u\x7b" ++ hexDigits false c.toNat ++ "\x7d"

/-- An ASCII character as it is, if it shows; all else as an escape. -/
def asciiEscape (c : Char) : String :=
  if c = '\t' then "\\t"
  else if c = '\r' then "\\r"
  else if c = '\n' then "\\n"
  else if c = '\\' || c = '"' || c = '\'' then "\\" ++ c.toString
  else if 0x20 ≤ c.toNat && c.toNat ≤ 0x7E then c.toString
  else codePointEscape c

/-- The control characters: both blocks of Unicode's category `Cc`. -/
def isControl (c : Char) : Bool := c.toNat ≤ 0x1F || (0x7F ≤ c.toNat && c.toNat ≤ 0x9F)

/-- A character between back quotes. One that would not show is written as an escape and followed
by its code point in at least four digits. -/
def describe (c : Char) : String :=
  if isControl c || (isBlank c && c != ' ') then
    let digits := hexDigits true c.toNat
    "`" ++ asciiEscape c ++ "` (U+" ++ "".pushn '0' (4 - digits.length) ++ digits ++ ")"
  else "`" ++ c.toString ++ "`"

/-! ## Quoted texts -/

/-- A character as it stands in a quoted text. -/
def quotedChar (c : Char) : String :=
  if c = '\x00' then "\\0"
  else if c = '\t' then "\\t"
  else if c = '\r' then "\\r"
  else if c = '\n' then "\\n"
  else if c = '\\' || c = '"' then "\\" ++ c.toString
  else if isVisible c then c.toString
  else codePointEscape c

/-- The text between double quotes. -/
def quoted (text : String) : String :=
  "\"" ++ String.join (text.toList.map quotedChar) ++ "\""

end SchemaMerge.Text
