import SchemaMerge.Reading.Definition
import SchemaMerge.Token.Lexer

/-!
# Reading documents

A document is read definition by definition up to the token for the end of the text
(`parse_document`). Descriptions with no definition behind them are dropped.
-/

namespace SchemaMerge

/-- The keywords that start a definition. -/
inductive DefinitionWord
  | schema | directive | scalar | enum | interface | union | input | type | extend
deriving DecidableEq, Inhabited

namespace DefinitionWord

/-- Every word that starts a definition, in the order in which messages list them. -/
def all : List DefinitionWord :=
  [.schema, .directive, .scalar, .enum, .interface, .union, .input, .type, .extend]

/-- The word as a keyword. -/
def keyword : DefinitionWord → Keyword
  | .schema => .schema
  | .directive => .directive
  | .scalar => .scalar
  | .enum => .enum
  | .interface => .interface
  | .union => .union
  | .input => .input
  | .type => .type
  | .extend => .extend

end DefinitionWord

namespace Parser

/-- The first word of a definition. -/
def Want.definition : Want (DefinitionWord × Span) where
  read token :=
    (DefinitionWord.all.find? fun word => token.kind = .keyword word.keyword).map
      fun word => (word, token.span)
  expected := DefinitionWord.all.map fun word => "`" ++ word.keyword.text ++ "`"

/-- The document with the definition that starts with the given word. -/
def definitionTail (document : Document) (texts : List String) :
    DefinitionWord × Span → Parser Document
  | (.schema, span) => do
    let block ← schemaBlockTail texts span
    return { document with schemaBlocks := document.schemaBlocks ++ [block] }
  | (.directive, _) => do
    let definition ← directiveDefinitionTail texts
    return { document with
      directiveDefinitions := document.directiveDefinitions ++ [definition] }
  | (.scalar, _) => do
    let definition ← scalarTail texts
    return { document with scalars := document.scalars ++ [definition] }
  | (.enum, _) => do
    let definition ← enumTail texts
    return { document with enums := document.enums ++ [definition] }
  | (.interface, _) => do
    let definition ← fieldsDefinitionTail "interface name" texts
    return { document with interfaces := document.interfaces ++ [definition] }
  | (.union, _) => do
    let definition ← unionTail texts
    return { document with unions := document.unions ++ [definition] }
  | (.input, _) => do
    let definition ← fieldsDefinitionTail "input name" texts
    return { document with inputs := document.inputs ++ [definition] }
  | (.type, _) => do
    let definition ← typeTail false texts
    return { document with types := document.types ++ [definition] }
  | (.extend, _) => do
    let _ ← expect (.keyword .type)
    let definition ← typeTail true texts
    return { document with types := document.types ++ [definition] }

/-- All definitions up to the end of the text. -/
def document : Parser Document :=
  loop
    (fun document => do
      let texts ← descriptions
      if ← nextIs .endOfText then return .inl document else return .inr (document, texts))
    Want.definition
    (fun (document, texts) word => definitionTail document texts word)
    .empty

end Parser

namespace Document

/-- The document that the tokens of a file form. -/
def ofTokens (file : String) (tokens : List Token) : Except Diagnostic Document :=
  match Parser.document.run (.ofTokens file tokens) with
  | .ok (document, _) => .ok document
  | .error e => .error e

/-- The document that the text of a file forms. -/
def ofText (file text : String) : Except Diagnostic Document :=
  ofTokens file (Token.ofText file text)

end Document

end SchemaMerge
