import SchemaMerge.Reading.Member

/-!
# Reading definitions

Every definition starts with a keyword. The parsers here read what stands behind it, given the
descriptions that stood before it: `parse_schema_block`, `parse_directive_definition`,
`parse_scalar`, `parse_enum`, `parse_union` and `parse_type_def`. Interfaces and inputs differ in
the keyword alone and are read by one parser, `fieldsDefinitionTail` (`parse_interface`,
`parse_input`).
-/

namespace SchemaMerge.Parser

/-! ## Schema blocks -/

/-- A schema block with a word in it that is no root operation. -/
def unknownSchemaKey (key : String) (span : Span) : Diagnostic :=
  .plain (.syntactic (.unknownSchemaKey key))
    ("unknown schema key `" ++ key ++ "`; expected `query`, `mutation`, or `subscription`") span

/-- A schema block that names two types for one operation. -/
def duplicateSchemaKey (key : String) (span : Span) : Diagnostic :=
  .plain (.syntactic (.duplicateSchemaKey key))
    ("schema key `" ++ key ++ "` is set more than once") span

/-- The block with more descriptions. -/
def addDescriptions (block : SchemaBlock) (texts : List String) : SchemaBlock :=
  { block with descriptions := block.descriptions ++ texts }

/-- An entry of a schema block behind its key. -/
def schemaEntryTail (block : SchemaBlock) (key : String × Span) : Parser SchemaBlock := do
  match RootOperation.ofKey? key.1 with
  | none => fail (unknownSchemaKey key.1 key.2)
  | some operation =>
    let _ ← expect (.mark .colon)
    let block := addDescriptions block (← innerComments)
    let type ← name "root type name"
    if (block.rootType? operation).isSome then fail (duplicateSchemaKey key.1 key.2)
    else return block.setRootType type operation

/-- A schema block. All comments in it describe it. -/
def schemaBlockTail (texts : List String) (span : Span) : Parser SchemaBlock := do
  let inner ← innerComments
  let opening ← expect (.mark .braceOpen)
  let block ← loop
    (fun block => do
      skipCommas
      let block := addDescriptions block (← descriptions)
      if ← closesBraces ["`query`", "`mutation`", "`subscription`"] opening then
        return .inl block
      else return .inr block)
    (.name "schema key")
    schemaEntryTail
    ⟨none, none, none, texts ++ inner, span⟩
  let _ ← expect (.mark .braceClose)
  return block

/-! ## Directive definitions -/

/-- The definition of a directive. -/
def directiveDefinitionTail (descriptions : List String) : Parser DirectiveDefinition := do
  let _ ← expect (.mark .atSign)
  let (name, span) ← expect (.name "directive name")
  let arguments ← optionalArguments
  let repeatable ← takeIf (.keyword .repeatable)
  let _ ← expect (.keyword .on)
  let locations ← separatedNames .pipe "directive location"
  let comments ← trailingComment
  return { name, arguments, repeatable, locations, descriptions, comments, span }

/-! ## Definitions of types -/

/-- The definition of a scalar. -/
def scalarTail (descriptions : List String) : Parser ScalarDefinition := do
  let (name, span) ← expect (.name "scalar name")
  let directives ← directives
  let comments ← trailingComment
  return { name, directives, descriptions, comments, span }

/-- The definition of an enum. -/
def enumTail (descriptions : List String) : Parser EnumDefinition := do
  let (name, span) ← expect (.name "enum name")
  let directives ← directives
  let inner ← headerComments
  let values ← optionalEnumValues
  let trailing ← trailingComment
  return { name, values, directives, descriptions, comments := inner ++ trailing, span }

/-- The definition of an interface or an input, whose name stands for `what`. -/
def fieldsDefinitionTail (what : String) (descriptions : List String) :
    Parser FieldsDefinition := do
  let (name, span) ← expect (.name what)
  let directives ← directives
  let inner ← headerComments
  let fields ← optionalFields
  let trailing ← trailingComment
  return { name, fields, directives, descriptions, comments := inner ++ trailing, span }

/-- The definition of a union. -/
def unionTail (descriptions : List String) : Parser UnionDefinition := do
  let (name, span) ← expect (.name "union name")
  let directives ← directives
  let members ← optionalUnionMembers
  let comments ← trailingComment
  return { name, members, directives, descriptions, comments, span }

/-- The definition of an object type, or an extension of one. -/
def typeTail (isExtension : Bool) (descriptions : List String) : Parser TypeDefinition := do
  let (name, span) ← expect (.name "type name")
  let interfaces ← optionalInterfaces
  let directives ← directives
  let inner ← headerComments
  let fields ← optionalFields
  let trailing ← trailingComment
  return { name, interfaces, fields, directives, descriptions, comments := inner ++ trailing
           isExtension, span }

end SchemaMerge.Parser
