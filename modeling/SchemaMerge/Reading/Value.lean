import SchemaMerge.Document.Basic
import SchemaMerge.Reading.Documentation

/-!
# Reading values, types and directives

A list inside a list literal is kept as one value, written with its brackets and with the separator
of the place it stands in. Lists may be nested up to a fixed depth (`parse_list_literal`). Beside
values this module reads defaults, types and directives (`parse_default_value`, `parse_type_ref`,
`parse_directives`).
-/

namespace SchemaMerge.Parser

/-! ## Literals -/

/-- How deep list literals may be nested. -/
def maxListDepth : Nat := 32

/-- A bracket that opens a list deeper than allowed. -/
def nestingTooDeep (opening : Span) : Diagnostic :=
  .plain (.syntactic (.nestingTooDeep maxListDepth))
    ("list literal nested deeper than " ++ toString maxListDepth ++ " levels") opening

/-- An item of a list literal: the bracket of a list inside it, or a literal. -/
def Want.listItem : Want (Span ⊕ String) where
  read token :=
    if token.kind = .punctuator .bracketOpen then some (.inl token.span)
    else token.kind.literal?.map .inr
  expected := ["value", "`]`"]

/-- The values of a list literal behind its opening bracket. Inside it, lists may be nested `depth`
deep, itself included. -/
def listTail (separator : String) : Nat → Span → Parser (List String)
  | 0, opening => fail (nestingTooDeep opening)
  | depth + 1, _ => do
    let values ← loop
      (fun values => do
        skipCommas
        if ← nextIs (.punctuator .bracketClose) then return .inl values else return .inr values)
      Want.listItem
      (fun values item =>
        match item with
        | .inl opening => do
          let nested ← listTail separator depth opening
          return values ++ ["[" ++ String.intercalate separator nested ++ "]"]
        | .inr value => return values ++ [value])
      []
    let _ ← expect (.mark .bracketClose)
    return values

/-- A literal, or a list literal and the mark that it is one. -/
def value (separator : String) : Parser (List String × Bool) := do
  if ← nextIs (.punctuator .bracketOpen) then
    let opening ← expect (.mark .bracketOpen)
    return (← listTail separator maxListDepth opening, true)
  else return ([← expect .literal], false)

/-- The default behind an equals sign, if there is one. -/
def optionalDefault : Parser (Option DefaultValue) := do
  if ← takeIf (.punctuator .equals) then
    let (values, isList) ← value ", "
    return some ⟨values, isList⟩
  else return none

/-! ## Types -/

/-- A name that stands for `what`. -/
def name (what : String) : Parser String := do return (← expect (.name what)).1

/-- A type: a name or a list of it, each perhaps with a bang. -/
def typeRef : Parser TypeRef := do
  if ← takeIf (.punctuator .bracketOpen) then
    let item ← name "type name"
    let bang ← takeIf (.punctuator .bang)
    let _ ← expect (.mark .bracketClose)
    let listBang ← takeIf (.punctuator .bang)
    return .list item (!bang) (!listBang)
  else
    let item ← name "type name"
    let bang ← takeIf (.punctuator .bang)
    return .named item (!bang)

/-! ## Directives -/

/-- The arguments given to a directive, if there are any, and the descriptions among them. -/
def directiveArguments : Parser (List DirectiveArgument × List String) := do
  if ← takeIf (.punctuator .parenOpen) then
    let found ← loop
      (fun (arguments, texts) => do
        skipCommas
        let texts := texts ++ (← descriptions)
        skipCommas
        if ← nextIs (.punctuator .parenClose) then return .inl (arguments, texts)
        else return .inr (arguments, texts))
      (.name "directive argument name")
      (fun (arguments, texts) (name, _) => do
        let _ ← expect (.mark .colon)
        let (values, isList) ← value ","
        return (arguments ++ [⟨name, values, isList⟩], texts))
      ([], [])
    let _ ← expect (.mark .parenClose)
    return found
  else return ([], [])

/-- The directives that are applied to what was just read. -/
def directives : Parser (List Directive) :=
  loop
    (fun found => do
      if ← nextIs (.punctuator .atSign) then return .inr found else return .inl found)
    (.mark .atSign)
    (fun found _ => do
      let before ← descriptions
      let name ← name "directive name"
      let (arguments, inner) ← directiveArguments
      return found ++ [⟨name, arguments, before ++ inner⟩])
    []

end SchemaMerge.Parser
