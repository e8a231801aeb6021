import SchemaMerge.Printing.Value

/-!
# Printing documents

Every definition is a block of whole lines. Of the descriptions and the comments of a node the first
is printed (`write_descriptions`, `write_comments`).

A document is printed as blocks with an empty line between them (`serialize`): the first schema
block if it names a root type, the directive definitions, the types with the root types first, the
scalars, enums, interfaces, unions and inputs.
-/

namespace SchemaMerge.Printing

/-! ## Members -/

/-- A field, one level deep. -/
def field (unit : String) (field : Field) : String :=
  description unit 1 field.descriptions ++ indentation unit 1 ++ field.name ++
    arguments unit 1 field.arguments ++ ": " ++ field.type.text ++ defaultValue field.default ++
    directives unit 1 field.directives ++ trailingComment field.comments ++ "\n"

/-- An enum value, one level deep. -/
def enumValue (unit : String) (value : EnumValue) : String :=
  description unit 1 value.descriptions ++ indentation unit 1 ++ value.name ++
    directives unit 1 value.directives ++ trailingComment value.comments ++ "\n"

/-- Printed members between braces, if there are any. -/
def members (members : List String) : String :=
  if members.isEmpty then "" else " \x7b\n" ++ String.join members ++ "\x7d"

/-! ## Definitions -/

/-- The entry of a schema block for an operation, if it names a type. -/
def schemaEntry (unit : String) (block : SchemaBlock) (operation : RootOperation) : String :=
  match block.rootType? operation with
  | none => ""
  | some type => indentation unit 1 ++ operation.key ++ ": " ++ type ++ "\n"

/-- A schema block. -/
def schemaBlock (unit : String) (block : SchemaBlock) : String :=
  description unit 0 block.descriptions ++ "schema \x7b\n" ++
    String.join (RootOperation.all.map (schemaEntry unit block)) ++ "\x7d\n"

/-- The definition of a directive. -/
def directiveDefinition (unit : String) (definition : DirectiveDefinition) : String :=
  description unit 0 definition.descriptions ++ "directive @" ++ definition.name ++
    arguments unit 0 definition.arguments ++
    (if definition.repeatable then " repeatable" else "") ++
    " on " ++ String.intercalate " | " definition.locations ++
    trailingComment definition.comments ++ "\n"

/-- The interfaces of a type, if there are any. -/
def interfaces (names : List String) : String :=
  if names.isEmpty then "" else " implements " ++ String.intercalate " & " names

/-- The definition of a type. An extension is printed as a definition. -/
def type (unit : String) (definition : TypeDefinition) : String :=
  description unit 0 definition.descriptions ++ "type " ++ definition.name ++
    interfaces definition.interfaces ++ directives unit 0 definition.directives ++
    members (definition.fields.map (field unit)) ++ trailingComment definition.comments ++ "\n"

/-- The definition of a scalar. -/
def scalar (unit : String) (definition : ScalarDefinition) : String :=
  description unit 0 definition.descriptions ++ "scalar " ++ definition.name ++
    directives unit 0 definition.directives ++ trailingComment definition.comments ++ "\n"

/-- The definition of an enum. -/
def enum (unit : String) (definition : EnumDefinition) : String :=
  description unit 0 definition.descriptions ++ "enum " ++ definition.name ++
    directives unit 0 definition.directives ++
    members (definition.values.map (enumValue unit)) ++ trailingComment definition.comments ++ "\n"

/-- The definition of an interface or an input, behind its keyword. -/
def fieldsDefinition (keyword unit : String) (definition : FieldsDefinition) : String :=
  description unit 0 definition.descriptions ++ keyword ++ " " ++ definition.name ++
    directives unit 0 definition.directives ++
    members (definition.fields.map (field unit)) ++ trailingComment definition.comments ++ "\n"

/-- The members of a union, if there are any. -/
def unionMembers (names : List String) : String :=
  if names.isEmpty then "" else " = " ++ String.intercalate " | " names

/-- The definition of a union. -/
def union (unit : String) (definition : UnionDefinition) : String :=
  description unit 0 definition.descriptions ++ "union " ++ definition.name ++
    directives unit 0 definition.directives ++ unionMembers definition.members ++
    trailingComment definition.comments ++ "\n"

end SchemaMerge.Printing

/-! ## Documents -/

namespace SchemaMerge.Document

/-- The blocks of the printed document, in order. -/
def blocks (unit : String) (document : Document) : List String :=
  ((document.schemaBlocks.take 1).filter SchemaBlock.hasRootTypes).map
      (Printing.schemaBlock unit) ++
    document.directiveDefinitions.map (Printing.directiveDefinition unit) ++
    document.rootsFirst.map (Printing.type unit) ++
    document.scalars.map (Printing.scalar unit) ++
    document.enums.map (Printing.enum unit) ++
    document.interfaces.map (Printing.fieldsDefinition "interface" unit) ++
    document.unions.map (Printing.union unit) ++
    document.inputs.map (Printing.fieldsDefinition "input" unit)

/-- The document as text, each level indented by `unit`. -/
def print (unit : String) (document : Document) : String :=
  String.intercalate "\n" (document.blocks unit)

end SchemaMerge.Document
