import SchemaMerge.Reading.Value

/-!
# Reading the members of definitions

Arguments stand in parentheses (`parse_arg_defs`); fields and enum values in braces
(`parse_optional_fields`, `parse_optional_enum_values`), which are read alike and so by one parser,
`optionalMembers`. Commas between members mean nothing, and descriptions with nothing behind them
are dropped (`drop_dangling_descriptions`).
-/

namespace SchemaMerge.Parser

/-! ## Arguments -/

/-- An argument behind its name. -/
def argumentTail (texts : List String) (name : String) : Parser Argument := do
  let _ ← expect (.mark .colon)
  let inner ← innerComments
  let type ← typeRef
  let default ← optionalDefault
  let directives ← directives
  return { name, type, default, directives, descriptions := texts ++ inner }

/-- The arguments in parentheses, if there are any. -/
def optionalArguments : Parser (List Argument) := do
  if ← takeIf (.punctuator .parenOpen) then
    let arguments ← loop
      (fun arguments => do
        skipCommas
        let texts ← descriptions
        skipCommas
        if ← nextIs (.punctuator .parenClose) then return .inl arguments
        else return .inr (arguments, texts))
      (.name "argument name")
      (fun (arguments, texts) (name, _) => return arguments ++ [← argumentTail texts name])
      []
    let _ ← expect (.mark .parenClose)
    return arguments
  else return []

/-! ## Fields -/

/-- Whether a closing brace comes next. Fails where neither that nor a name stands. -/
def closesBraces (expected : List String) (opening : Span) : Parser Bool := do
  let feed ← feed
  match feed.next? with
  | none => return false
  | some token =>
    if token.kind = .punctuator .braceClose then return true
    else if token.kind.name?.isSome then return false
    else fail (feed.unexpectedInBraces (expected ++ ["`\x7d`"]) opening)

/-- The members between braces, if there are braces. Each is a name and what `member` reads behind
it, given the descriptions before it. -/
def optionalMembers {α : Type} (what : String)
    (member : List String → String × Span → Parser α) : Parser (List α) := do
  if ← nextIs (.punctuator .braceOpen) then
    let opening ← expect (.mark .braceOpen)
    let members ← loop
      (fun members => do
        skipCommas
        let texts ← descriptions
        if ← closesBraces [what] opening then return .inl members
        else return .inr (members, texts))
      (.name what)
      (fun (members, texts) name => return members ++ [← member texts name])
      []
    let _ ← expect (.mark .braceClose)
    return members
  else return []

/-- A field behind its name. -/
def fieldTail (descriptions : List String) (name : String × Span) : Parser Field := do
  let arguments ← optionalArguments
  let _ ← expect (.mark .colon)
  let inner ← innerComments
  let type ← typeRef
  let default ← optionalDefault
  let directives ← directives
  let trailing ← trailingComment
  return { name := name.1, arguments, type, default, directives, descriptions
           comments := inner ++ trailing, span := name.2 }

/-- The fields of a definition. -/
def optionalFields : Parser (List Field) := optionalMembers "field name" fieldTail

/-- An enum value behind its name. -/
def enumValueTail (descriptions : List String) (name : String × Span) : Parser EnumValue := do
  let directives ← directives
  let comments ← trailingComment
  return { name := name.1, directives, descriptions, comments }

/-- The values of an enum. -/
def optionalEnumValues : Parser (List EnumValue) := optionalMembers "enum value" enumValueTail

/-! ## Names between marks -/

/-- Names that stand for `what`, with a mark between them and perhaps one in front. -/
def separatedNames (separator : Punctuator) (what : String) : Parser (List String) := do
  let _ ← takeIf (.punctuator separator)
  loop
    (fun (names, more) => return if more then .inr names else .inl names)
    (.name what)
    (fun names (name, _) => do
      let more ← takeIf (.punctuator separator)
      return (names ++ [name], more))
    ([], true)

/-- The interfaces that a type implements, each kept once, where it is first named. -/
def optionalInterfaces : Parser (List String) := do
  if ← takeIf (.keyword .implements) then
    return uniteNames [] (← separatedNames .ampersand "interface name")
  else return []

/-- The members of a union. -/
def optionalUnionMembers : Parser (List String) := do
  if ← takeIf (.punctuator .equals) then separatedNames .pipe "union member type" else return []

end SchemaMerge.Parser
