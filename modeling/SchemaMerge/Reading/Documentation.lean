import SchemaMerge.Reading.Parser

/-!
# Reading descriptions and comments

Strings, block strings and comments before a definition or a member describe it
(`parse_descriptions`). A comment that starts on the line on which a definition or member ends
trails it (`parse_trailing_comments`). A comment between a definition's header and its opening brace
belongs to the definition; when no brace follows, only a comment on the header's last line does, and
the others describe the next definition (`parse_comments_before_body`).
-/

namespace SchemaMerge.Parser

/-- Takes commas, which mean nothing between entries. -/
def skipCommas : Parser Unit := do
  let _ ← takeRun fun kind => if kind = .punctuator .comma then some () else none

/-- The descriptions of what follows, those that were read too early first. -/
def descriptions : Parser (List String) := do
  let carried ← swapCarried []
  return carried ++ (← takeRun TokenKind.description?)

/-- The comments that stand where something else is about to come. -/
def innerComments : Parser (List String) := takeRun TokenKind.comment?

/-- The comment that trails what was just read. -/
def trailingComment : Parser (List String) := do
  skipCommas
  match (← feed).trailing? with
  | some comment =>
    advance
    return [comment]
  | none => return []

/-- The comments between the header of a definition and its body, if it has one. -/
def headerComments : Parser (List String) := do
  let trails := (← feed).trailing?.isSome
  let comments ← innerComments
  if comments.isEmpty || (← nextIs (.punctuator .braceOpen)) then return comments
  let own := if trails then 1 else 0
  let _ ← swapCarried (comments.drop own)
  return comments.take own

end SchemaMerge.Parser
