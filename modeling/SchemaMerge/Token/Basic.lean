import SchemaMerge.Diagnostic.Basic

/-!
# Tokens

The tokens of the schema definition language: punctuators, the twelve keywords, names, literals and
comments, the end of the text, and faults, which stand where the characters form no token. A keyword
is also a name wherever a name is wanted (`as_name`). `TokenKind.text` is how messages show a token.

## Results

* `Keyword.ofText?_eq_some_iff`: a word is a keyword exactly when it is that keyword's text.
* `Punctuator.text_ofChar?`: a one-character punctuator is written as that character.
-/

namespace SchemaMerge

/-! ## Punctuators -/

/-- The marks of the language. -/
inductive Punctuator
  | ampersand | atSign | bang | colon | comma | braceClose | braceOpen | dollar | dot | ellipsis
  | equals | minus | parenClose | parenOpen | pipe | plus | slash | bracketClose | bracketOpen
  | star
deriving DecidableEq, Inhabited

namespace Punctuator

/-- The mark as it is written. -/
def text : Punctuator → String
  | .ampersand => "&"
  | .atSign => "@"
  | .bang => "!"
  | .colon => ":"
  | .comma => ","
  | .braceClose => "\x7d"
  | .braceOpen => "\x7b"
  | .dollar => "$"
  | .dot => "."
  | .ellipsis => "..."
  | .equals => "="
  | .minus => "-"
  | .parenClose => ")"
  | .parenOpen => "("
  | .pipe => "|"
  | .plus => "+"
  | .slash => "/"
  | .bracketClose => "]"
  | .bracketOpen => "["
  | .star => "*"

/-- The mark that a character is in every context. Dots and signs depend on what follows them. -/
def ofChar? : Char → Option Punctuator
  | '!' => some .bang
  | '$' => some .dollar
  | '&' => some .ampersand
  | '(' => some .parenOpen
  | ')' => some .parenClose
  | '*' => some .star
  | ',' => some .comma
  | '/' => some .slash
  | ':' => some .colon
  | '=' => some .equals
  | '@' => some .atSign
  | '[' => some .bracketOpen
  | ']' => some .bracketClose
  | '{' => some .braceOpen
  | '|' => some .pipe
  | '}' => some .braceClose
  | _ => none

theorem text_ofChar? {c : Char} {p : Punctuator} (h : ofChar? c = some p) :
    p.text.toList = [c] := by
  unfold ofChar? at h
  split at h <;> simp at h <;> subst h <;> rfl

end Punctuator

/-! ## Keywords -/

/-- The words with a meaning of their own. -/
inductive Keyword
  | directive | enum | extend | implements | input | interface | on | repeatable | scalar | schema
  | type | union
deriving DecidableEq, Inhabited

namespace Keyword

/-- The keyword as it is written. -/
def text : Keyword → String
  | .directive => "directive"
  | .enum => "enum"
  | .extend => "extend"
  | .implements => "implements"
  | .input => "input"
  | .interface => "interface"
  | .on => "on"
  | .repeatable => "repeatable"
  | .scalar => "scalar"
  | .schema => "schema"
  | .type => "type"
  | .union => "union"

/-- Every keyword. -/
def all : List Keyword :=
  [.directive, .enum, .extend, .implements, .input, .interface, .on, .repeatable, .scalar,
    .schema, .type, .union]

/-- The keyword that a word is. -/
def ofText? (word : String) : Option Keyword := all.find? fun keyword => keyword.text = word

theorem ofText?_eq_some_iff {word : String} {keyword : Keyword} :
    ofText? word = some keyword ↔ keyword.text = word := by
  constructor
  · intro h
    simpa using List.find?_some h
  · rintro rfl
    cases keyword <;> decide

end Keyword

/-! ## Tokens -/

/-- What a token is, with the text that matters of it. -/
inductive TokenKind
  | punctuator (mark : Punctuator)
  | keyword (word : Keyword)
  | name (text : String)
  /-- An integer in canonical form. -/
  | integer (text : String)
  /-- A number with a fraction or an exponent, as written. -/
  | float (text : String)
  /-- A string as written, with its quotes. -/
  | string (text : String)
  /-- A block string with its quotes, each line break written as a line feed. -/
  | blockString (text : String)
  /-- A comment from its `#` to the end of its line. -/
  | comment (text : String)
  | endOfText
  /-- Characters that form no token, explained. -/
  | fault (cause : LexicalCause) (message : String) (notes : List Note)
deriving DecidableEq, Inhabited

namespace TokenKind

/-- The name that the token is, keywords included. -/
def name? : TokenKind → Option String
  | .name text => some text
  | .keyword word => some word.text
  | _ => none

/-- The literal that the token is. Names are literals too: they write enum values. -/
def literal? : TokenKind → Option String
  | .string text | .blockString text | .integer text | .float text => some text
  | kind => kind.name?

/-- The documentation that the token is: a string, a block string or a comment. -/
def description? : TokenKind → Option String
  | .string text | .blockString text | .comment text => some text
  | _ => none

/-- The comment that the token is. -/
def comment? : TokenKind → Option String
  | .comment text => some text
  | _ => none

/-- The token as messages write it. -/
def text : TokenKind → String
  | .punctuator mark => mark.text
  | .keyword word => word.text
  | .name text | .integer text | .float text | .string text | .blockString text
  | .comment text => text
  | .endOfText => "end of input"
  | .fault _ message _ => message

end TokenKind

/-- A token and the span it covers. -/
structure Token where
  kind : TokenKind
  span : Span
deriving DecidableEq, Inhabited

end SchemaMerge
