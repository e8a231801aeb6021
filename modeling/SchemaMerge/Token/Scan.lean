import SchemaMerge.Text.Position
import SchemaMerge.Text.Escape
import SchemaMerge.Token.Basic

/-!
# The token at the front of a text

`scan` finds the first token of a text without regard to positions, as `next_token` does. It splits
the text into a gap, the characters of the token, and the rest. The gap holds the ignored
characters: spaces, tabs, line breaks and byte order marks. A name or a number has to be followed by
an ignored character, a bracket, a colon, a comma, a bang or the end of the text; where it is not,
the character behind it is at fault and the name or number falls to the gap (`lex_name`,
`lex_number`, `check_value_terminator`). Strings end at their line (`lex_string`), block strings at
three quotes (`lex_block_string`).

## Results

* `scan_append`: gap, lexeme and rest are the text.
* `scan_rest_lt`: a token other than the end of the text takes at least one character.
-/

namespace SchemaMerge

/-! ## Classes of characters -/

/-- The characters between tokens that mean nothing. -/
def isIgnored (c : Char) : Bool :=
  c = ' ' || c = '\t' || c = '\n' || c = '\r' || c = '\uFEFF'

/-- The characters that may start a name. -/
def isNameStart (c : Char) : Bool := c = '_' || c.isAlpha

/-- The characters that may continue a name. -/
def isNamePart (c : Char) : Bool := c = '_' || c.isAlphanum

/-- The characters that may follow a name or a number. -/
def endsWord (c : Char) : Bool :=
  isIgnored c || c = '(' || c = ')' || c = '[' || c = ']' || c = '{' || c = '}' || c = ':' ||
    c = '!' || c = ','

/-! ## Integers

Two integer literals that denote one number have one canonical form: no plus sign, no leading
zeros, and no sign on zero. It works on digits, so numbers of any size are exact. -/

namespace Integer

/-- Digits without leading zeros; a single zero if nothing else is left. -/
def canonicalDigits (digits : List Char) : List Char :=
  match digits.dropWhile (· = '0') with
  | [] => ['0']
  | digits => digits

/-- The canonical form of an integer literal. -/
def canonical : List Char → List Char
  | '-' :: digits =>
    if digits.all (· = '0') then ['0'] else '-' :: canonicalDigits digits
  | '+' :: digits => canonicalDigits digits
  | digits => canonicalDigits digits

end Integer

/-! ## Numbers -/

/-- A number split off the front of a text. -/
structure NumberSplit where
  digits : List Char
  isFloat : Bool
  rest : List Char

namespace NumberSplit

/-- The optional fraction behind the whole part: a dot with at least one digit behind it. -/
def fraction (cs : List Char) : NumberSplit :=
  match cs with
  | '.' :: d :: rest =>
    if d.isDigit then
      ⟨'.' :: (d :: rest).takeWhile Char.isDigit, true, (d :: rest).dropWhile Char.isDigit⟩
    else ⟨[], false, cs⟩
  | _ => ⟨[], false, cs⟩

/-- The digits of an exponent behind its mark, which may have a sign. -/
def exponentDigits (mark : List Char) (digits cs : List Char) : NumberSplit :=
  match digits with
  | d :: _ =>
    if d.isDigit then
      ⟨mark ++ digits.takeWhile Char.isDigit, true, digits.dropWhile Char.isDigit⟩
    else ⟨[], false, cs⟩
  | [] => ⟨[], false, cs⟩

/-- The optional exponent at the end: `e` or `E`, perhaps a sign, and at least one digit. -/
def exponent (cs : List Char) : NumberSplit :=
  match cs with
  | e :: rest =>
    if e = 'e' || e = 'E' then
      match rest with
      | s :: digits =>
        if s = '-' || s = '+' then exponentDigits [e, s] digits cs
        else exponentDigits [e] rest cs
      | [] => ⟨[], false, cs⟩
    else ⟨[], false, cs⟩
  | [] => ⟨[], false, cs⟩

/-- The number behind an optional sign. -/
def unsigned (sign cs : List Char) : NumberSplit :=
  let whole := cs.takeWhile Char.isDigit
  let fraction := fraction (cs.dropWhile Char.isDigit)
  let exponent := exponent fraction.rest
  ⟨sign ++ whole ++ fraction.digits ++ exponent.digits, fraction.isFloat || exponent.isFloat,
    exponent.rest⟩

theorem fraction_append (cs : List Char) : (fraction cs).digits ++ (fraction cs).rest = cs := by
  unfold fraction
  split
  · split <;> simp
  · simp

/-- The characters of an exponent are split where its digits end, and none is lost. -/
theorem exponentDigits_append {mark digits cs : List Char} (h : mark ++ digits = cs) :
    (exponentDigits mark digits cs).digits ++ (exponentDigits mark digits cs).rest = cs := by
  unfold exponentDigits
  split
  · split
    · simp [h]
    · simp
  · simp

theorem exponent_append (cs : List Char) : (exponent cs).digits ++ (exponent cs).rest = cs := by
  unfold exponent
  split
  · split
    · split
      · split
        · exact exponentDigits_append rfl
        · exact exponentDigits_append rfl
      · simp
    · simp
  · simp

/-- The characters of a number are split where it ends, and none is lost. -/
theorem unsigned_append (sign cs : List Char) :
    (unsigned sign cs).digits ++ (unsigned sign cs).rest = sign ++ cs := by
  simp [unsigned, exponent_append, fraction_append]

theorem unsigned_digits_ne_nil {sign cs : List Char} {d : Char} {rest : List Char}
    (h : cs = d :: rest) (hd : d.isDigit) : (unsigned sign cs).digits ≠ [] := by
  simp [unsigned, h, hd]

end NumberSplit

/-! ## Strings -/

/-- The tail of a string split off the front of a text. -/
structure StringSplit where
  taken : List Char
  closed : Bool
  rest : List Char

/-- The split with more characters in front. -/
def StringSplit.extend (front : List Char) (split : StringSplit) : StringSplit :=
  { split with taken := front ++ split.taken }

/-- A string behind its opening quote: up to its closing quote, or up to the end of the line if
it has none. A backslash takes the character behind it along. -/
def stringTail : List Char → StringSplit
  | [] => ⟨[], false, []⟩
  | '"' :: rest => ⟨['"'], true, rest⟩
  | '\\' :: c :: rest =>
    if Text.isBreak c then ⟨['\\'], false, c :: rest⟩ else (stringTail rest).extend ['\\', c]
  | c :: rest =>
    if Text.isBreak c then ⟨[], false, c :: rest⟩ else (stringTail rest).extend [c]

/-- A block string behind its opening quotes: up to its closing quotes, or all there is. Escaped
triple quotes do not close it. -/
def blockTail : List Char → StringSplit
  | [] => ⟨[], false, []⟩
  | '\\' :: '"' :: '"' :: '"' :: rest => (blockTail rest).extend ['\\', '"', '"', '"']
  | '"' :: '"' :: '"' :: rest => ⟨['"', '"', '"'], true, rest⟩
  | c :: rest => (blockTail rest).extend [c]

/-- A string takes characters from the front and leaves the others. -/
theorem stringTail_append (cs : List Char) :
    (stringTail cs).taken ++ (stringTail cs).rest = cs := by
  fun_induction stringTail cs <;> simp_all [StringSplit.extend]

theorem blockTail_append (cs : List Char) : (blockTail cs).taken ++ (blockTail cs).rest = cs := by
  fun_induction blockTail cs <;> simp_all [StringSplit.extend]

/-! ## One token -/

/-- A text split at its first token. -/
structure Scan where
  /-- What stands before the token. -/
  gap : List Char
  /-- The characters of the token. -/
  lexeme : List Char
  /-- What stands behind the token. -/
  rest : List Char
  /-- The token, or why there is none. -/
  reading : Except LexicalCause TokenKind

namespace Scan

/-- A token without a gap before it. -/
def token (lexeme rest : List Char) (kind : TokenKind) : Scan := ⟨[], lexeme, rest, .ok kind⟩

/-- A name or number, which the character behind it may spoil. -/
def word (lexeme rest : List Char) (kind : TokenKind) : Scan :=
  match rest with
  | [] => token lexeme [] kind
  | c :: rest =>
    if endsWord c then token lexeme (c :: rest) kind
    else ⟨lexeme, [c], rest, .error (.invalidAdjacency (String.ofList lexeme) c)⟩

/-- A number behind an optional sign. -/
def number (sign cs : List Char) : Scan :=
  let split := NumberSplit.unsigned sign cs
  word split.digits split.rest
    (if split.isFloat then .float (String.ofList split.digits)
     else .integer (String.ofList (Integer.canonical split.digits)))

/-- The token that a name is. -/
def nameKind (name : String) : TokenKind :=
  match Keyword.ofText? name with
  | some word => .keyword word
  | none => .name name

/-- A string, by its opening quotes and its tail. -/
def quoted (opening : List Char) (tail : StringSplit) (fault : LexicalCause)
    (kind : List Char → TokenKind) : Scan :=
  let lexeme := opening ++ tail.taken
  ⟨[], lexeme, tail.rest, if tail.closed then .ok (kind lexeme) else .error fault⟩

/-- A string or block string behind its first quote. -/
def string : List Char → Scan
  | '"' :: '"' :: rest =>
    quoted ['"', '"', '"'] (blockTail rest) .unterminatedBlockString
      fun lexeme => .blockString (String.ofList (Text.normalizeBreaks lexeme))
  | rest =>
    quoted ['"'] (stringTail rest) .unterminatedString fun lexeme => .string (String.ofList lexeme)

/-- A dot, or an ellipsis, behind its first dot. -/
def dots : List Char → Scan
  | '.' :: '.' :: rest => token ['.', '.', '.'] rest (.punctuator .ellipsis)
  | rest => token ['.'] rest (.punctuator .dot)

/-- A sign: that of a number if a digit follows, otherwise a mark of its own. -/
def signed (sign : Char) (mark : Punctuator) (rest : List Char) : Scan :=
  match rest with
  | d :: _ => if d.isDigit then number [sign] rest else token [sign] rest (.punctuator mark)
  | [] => token [sign] [] (.punctuator mark)

/-- A comment behind its `#`, up to the end of the line. -/
def comment (rest : List Char) : Scan :=
  let isText := fun c => !Text.isBreak c
  let lexeme := '#' :: rest.takeWhile isText
  token lexeme (rest.dropWhile isText) (.comment (String.ofList lexeme))

/-- A name or keyword behind its first character. -/
def name (first : Char) (rest : List Char) : Scan :=
  let lexeme := first :: rest.takeWhile isNamePart
  word lexeme (rest.dropWhile isNamePart) (nameKind (String.ofList lexeme))

/-- The token with the given first character. -/
def startingWith (c : Char) (rest : List Char) : Scan :=
  match Punctuator.ofChar? c with
  | some mark => token [c] rest (.punctuator mark)
  | none =>
    if c = '#' then comment rest
    else if c = '.' then dots rest
    else if c = '"' then string rest
    else if isNameStart c then name c rest
    else if c.isDigit then number [] (c :: rest)
    else if c = '-' then signed '-' .minus rest
    else if c = '+' then signed '+' .plus rest
    else ⟨[], [c], rest, .error (.unexpectedCharacter c)⟩

/-- The first token of a text that starts with no ignored character. -/
def front : List Char → Scan
  | [] => token [] [] .endOfText
  | c :: rest => startingWith c rest

/-- All characters of a scan, in order. -/
def all (scan : Scan) : List Char := scan.gap ++ scan.lexeme ++ scan.rest

/-- A word that is not delimited is given up for the character behind it, yet all characters are
accounted for. -/
theorem all_word (lexeme rest : List Char) (kind : TokenKind) :
    (word lexeme rest kind).all = lexeme ++ rest := by
  unfold word
  split
  · simp [all, token]
  · split <;> simp [all, token]

theorem all_number (sign cs : List Char) : (number sign cs).all = sign ++ cs := by
  simp [number, all_word, NumberSplit.unsigned_append]

theorem all_string (rest : List Char) : (string rest).all = '"' :: rest := by
  unfold string
  split <;> simp [all, quoted, blockTail_append, stringTail_append]

theorem all_dots (rest : List Char) : (dots rest).all = '.' :: rest := by
  unfold dots
  split <;> simp [all, token]

theorem all_signed (sign : Char) (mark : Punctuator) (rest : List Char) :
    (signed sign mark rest).all = sign :: rest := by
  unfold signed
  split
  · split
    · simp [all_number]
    · simp [all, token]
  · simp [all, token]

theorem all_startingWith (c : Char) (rest : List Char) : (startingWith c rest).all = c :: rest := by
  fun_cases startingWith c rest with
  | case1 => rfl
  | case2 _ hcomment => simp [comment, token, all, hcomment]
  | case3 _ _ hdot => rw [all_dots, hdot]
  | case4 _ _ _ hquote => rw [all_string, hquote]
  | case5 => simp [name, all_word]
  | case6 => exact all_number [] (c :: rest)
  | case7 _ _ _ _ _ _ hminus => rw [all_signed, hminus]
  | case8 _ _ _ _ _ _ _ hplus => rw [all_signed, hplus]
  | case9 => rfl

/-- What stands at the front of a text is split without loss, whichever rule applies. -/
theorem all_front (cs : List Char) : (front cs).all = cs := by
  cases cs with
  | nil => rfl
  | cons c rest => exact all_startingWith c rest

end Scan

/-- The text split at its first token. -/
def scan (cs : List Char) : Scan :=
  let front := Scan.front (cs.dropWhile isIgnored)
  { front with gap := cs.takeWhile isIgnored ++ front.gap }

/-- A scan splits the text into the gap, the lexeme and the rest. -/
theorem scan_append (cs : List Char) :
    (scan cs).gap ++ (scan cs).lexeme ++ (scan cs).rest = cs := by
  have h := Scan.all_front (cs.dropWhile isIgnored)
  calc (scan cs).gap ++ (scan cs).lexeme ++ (scan cs).rest
      = cs.takeWhile isIgnored ++ (Scan.front (cs.dropWhile isIgnored)).all := by
        simp [scan, Scan.all, List.append_assoc]
    _ = cs := by rw [h, List.takeWhile_append_dropWhile]

/-! ## Every token takes a character -/

namespace Scan

theorem lexeme_word_ne_nil {lexeme : List Char} (h : lexeme ≠ []) (rest : List Char)
    (kind : TokenKind) : (word lexeme rest kind).lexeme ≠ [] := by
  unfold word
  split
  · exact h
  · split
    · exact h
    · simp

theorem lexeme_number_ne_nil (sign : List Char) {d : Char} (rest : List Char) (h : d.isDigit) :
    (number sign (d :: rest)).lexeme ≠ [] :=
  lexeme_word_ne_nil (NumberSplit.unsigned_digits_ne_nil rfl h) _ _

theorem lexeme_signed_ne_nil (sign : Char) (mark : Punctuator) (rest : List Char) :
    (signed sign mark rest).lexeme ≠ [] := by
  unfold signed
  split
  · split
    · next h => exact lexeme_number_ne_nil _ _ h
    · simp [token]
  · simp [token]

theorem lexeme_string_ne_nil (rest : List Char) : (string rest).lexeme ≠ [] := by
  unfold string
  split <;> simp [quoted]

theorem lexeme_dots_ne_nil (rest : List Char) : (dots rest).lexeme ≠ [] := by
  unfold dots
  split <;> simp [token]

theorem lexeme_startingWith_ne_nil (c : Char) (rest : List Char) :
    (startingWith c rest).lexeme ≠ [] := by
  fun_cases startingWith c rest with
  | case1 => simp [token]
  | case2 => simp [comment, token]
  | case3 => exact lexeme_dots_ne_nil rest
  | case4 => exact lexeme_string_ne_nil rest
  | case5 => exact lexeme_word_ne_nil (by simp) _ _
  | case6 _ _ _ _ _ hdigit => exact lexeme_number_ne_nil _ _ hdigit
  | case7 => exact lexeme_signed_ne_nil _ _ _
  | case8 => exact lexeme_signed_ne_nil _ _ _
  | case9 => simp

end Scan

/-- A scan without a lexeme has met the end of the text. -/
theorem scan_of_lexeme_eq_nil {cs : List Char} (h : (scan cs).lexeme = []) :
    (scan cs).reading = .ok .endOfText ∧ (scan cs).rest = [] := by
  cases hd : cs.dropWhile isIgnored with
  | nil => simp [scan, hd, Scan.front, Scan.token]
  | cons c rest =>
    exact absurd (by simpa [scan, hd, Scan.front] using h) (Scan.lexeme_startingWith_ne_nil c rest)

/-- A lexeme makes the rest shorter, so the tokens of a text come to an end. -/
theorem scan_rest_lt {cs : List Char} (h : (scan cs).lexeme ≠ []) :
    (scan cs).rest.length < cs.length := by
  have happ := congrArg List.length (scan_append cs)
  have := List.length_pos_iff.2 h
  simp only [List.length_append] at happ
  omega

end SchemaMerge
