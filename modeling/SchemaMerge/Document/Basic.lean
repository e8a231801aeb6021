import SchemaMerge.Text.Position

/-!
# Documents

What a schema text says: one list of definitions for each category, each in the order of the text.
Descriptions, comments and values are kept as written, quotes and `#` included, so that they can
be printed again without loss.

The types that serve the root operations are those that the schema block names, and for an
operation that it does not name the type of the default name (`root_type_names`). They stand before
all other types when a document is printed (`ordered_type_defs`).
-/

namespace SchemaMerge

/-- The names with those of another list that are new. -/
def uniteNames (names incoming : List String) : List String :=
  incoming.foldl (fun names name => if name ∈ names then names else names ++ [name]) names

/-! ## Types and values -/

/-- A reference to a type: a name, or a list of it, with a mark on each that may not be null. -/
structure TypeRef where
  name : String
  nullable : Bool
  isList : Bool
  listNullable : Bool
deriving DecidableEq, Inhabited

namespace TypeRef

/-- A reference that is no list. -/
def named (name : String) (nullable : Bool) : TypeRef := ⟨name, nullable, false, false⟩

/-- A reference to a list. -/
def list (name : String) (nullable listNullable : Bool) : TypeRef :=
  ⟨name, nullable, true, listNullable⟩

/-- The reference as it is written. -/
def text (type : TypeRef) : String :=
  let item := type.name ++ if type.nullable then "" else "!"
  if type.isList then "[" ++ item ++ "]" ++ if type.listNullable then "" else "!" else item

end TypeRef

/-- A default: one value, or a list of values. A list inside a list is one value of it. -/
structure DefaultValue where
  values : List String
  isList : Bool
deriving DecidableEq, Inhabited

/-! ## Directive applications -/

/-- An argument given to a directive. -/
structure DirectiveArgument where
  name : String
  values : List String
  isList : Bool
deriving DecidableEq, Inhabited

/-- An application of a directive. -/
structure Directive where
  name : String
  arguments : List DirectiveArgument
  descriptions : List String
deriving DecidableEq, Inhabited

/-! ## Members of definitions -/

/-- An argument of a field or of a directive definition. -/
structure Argument where
  name : String
  type : TypeRef
  default : Option DefaultValue
  directives : List Directive
  descriptions : List String
deriving DecidableEq, Inhabited

/-- A field of a type, an interface or an input. -/
structure Field where
  name : String
  arguments : List Argument
  type : TypeRef
  default : Option DefaultValue
  directives : List Directive
  descriptions : List String
  comments : List String
  span : Span
deriving DecidableEq, Inhabited

/-- A value of an enum. -/
structure EnumValue where
  name : String
  directives : List Directive
  descriptions : List String
  comments : List String
deriving DecidableEq, Inhabited

/-! ## Root operations -/

/-- The three operations that a schema block names a type for. -/
inductive RootOperation
  | query | mutation | subscription
deriving DecidableEq, Inhabited

namespace RootOperation

/-- The operations in the order in which schema blocks are printed. -/
def all : List RootOperation := [.query, .mutation, .subscription]

/-- The word for the operation in a schema block. -/
def key : RootOperation → String
  | .query => "query"
  | .mutation => "mutation"
  | .subscription => "subscription"

/-- The type that serves the operation when no schema block names one. -/
def defaultType : RootOperation → String
  | .query => "Query"
  | .mutation => "Mutation"
  | .subscription => "Subscription"

/-- The operation that a word in a schema block means. -/
def ofKey? (key : String) : Option RootOperation := all.find? fun operation => operation.key = key

theorem mem_all (operation : RootOperation) : operation ∈ all := by cases operation <;> decide

end RootOperation

/-! ## Definitions -/

/-- A block that names the types that serve the root operations. -/
structure SchemaBlock where
  query : Option String
  mutation : Option String
  subscription : Option String
  descriptions : List String
  span : Span
deriving DecidableEq, Inhabited

namespace SchemaBlock

/-- The type that the block names for an operation. -/
def rootType? (block : SchemaBlock) : RootOperation → Option String
  | .query => block.query
  | .mutation => block.mutation
  | .subscription => block.subscription

/-- The block with a type named for an operation. -/
def setRootType (block : SchemaBlock) (type : String) : RootOperation → SchemaBlock
  | .query => { block with query := some type }
  | .mutation => { block with mutation := some type }
  | .subscription => { block with subscription := some type }

/-- Whether the block names any type. -/
def hasRootTypes (block : SchemaBlock) : Bool :=
  RootOperation.all.any fun operation => (block.rootType? operation).isSome

end SchemaBlock

/-- The definition of a directive: where it may be applied and with which arguments. -/
structure DirectiveDefinition where
  name : String
  arguments : List Argument
  repeatable : Bool
  locations : List String
  descriptions : List String
  comments : List String
  span : Span
deriving DecidableEq, Inhabited

/-- The definition of a scalar type. -/
structure ScalarDefinition where
  name : String
  directives : List Directive
  descriptions : List String
  comments : List String
  span : Span
deriving DecidableEq, Inhabited

/-- The definition of an enum. -/
structure EnumDefinition where
  name : String
  values : List EnumValue
  directives : List Directive
  descriptions : List String
  comments : List String
  span : Span
deriving DecidableEq, Inhabited

/-- The definition of an interface or of an input type, which are both a name with fields. -/
structure FieldsDefinition where
  name : String
  fields : List Field
  directives : List Directive
  descriptions : List String
  comments : List String
  span : Span
deriving DecidableEq, Inhabited

/-- The definition of a union. -/
structure UnionDefinition where
  name : String
  members : List String
  directives : List Directive
  descriptions : List String
  comments : List String
  span : Span
deriving DecidableEq, Inhabited

/-- The definition of an object type, or an extension of one. -/
structure TypeDefinition where
  name : String
  interfaces : List String
  fields : List Field
  directives : List Directive
  descriptions : List String
  comments : List String
  isExtension : Bool
  span : Span
deriving DecidableEq, Inhabited

/-! ## Documents -/

/-- All definitions of a text, or of several. -/
structure Document where
  schemaBlocks : List SchemaBlock
  directiveDefinitions : List DirectiveDefinition
  scalars : List ScalarDefinition
  enums : List EnumDefinition
  interfaces : List FieldsDefinition
  unions : List UnionDefinition
  inputs : List FieldsDefinition
  types : List TypeDefinition
deriving DecidableEq, Inhabited

namespace Document

/-- The document without definitions. -/
def empty : Document := ⟨[], [], [], [], [], [], [], []⟩

/-- The definitions of both documents, category by category. -/
def append (d e : Document) : Document where
  schemaBlocks := d.schemaBlocks ++ e.schemaBlocks
  directiveDefinitions := d.directiveDefinitions ++ e.directiveDefinitions
  scalars := d.scalars ++ e.scalars
  enums := d.enums ++ e.enums
  interfaces := d.interfaces ++ e.interfaces
  unions := d.unions ++ e.unions
  inputs := d.inputs ++ e.inputs
  types := d.types ++ e.types

/-- The number of definitions, schema blocks included. -/
def count (d : Document) : Nat :=
  d.schemaBlocks.length + d.directiveDefinitions.length + d.scalars.length + d.enums.length +
    d.interfaces.length + d.unions.length + d.inputs.length + d.types.length

/-- The definitions of several documents, in order. -/
def concat (documents : List Document) : Document := documents.foldl append empty

end Document

/-! ## Root types -/

/-- The names of the types that serve query, mutation and subscription, in this order. -/
def rootTypeNames (block : Option SchemaBlock) : List String :=
  RootOperation.all.map fun operation =>
    (block.bind fun block => block.rootType? operation).getD operation.defaultType

/-- The types of each name in turn, and then those of no such name. A name that has had its turn
is passed over. -/
def typesByName (types : List TypeDefinition) : List String → List TypeDefinition
  | [] => types
  | name :: names =>
    types.filter (fun type => type.name = name) ++
      typesByName (types.filter fun type => type.name ≠ name) names

/-- The types of a document in the order in which they are printed. -/
def Document.rootsFirst (document : Document) : List TypeDefinition :=
  typesByName document.types (rootTypeNames document.schemaBlocks.head?)

end SchemaMerge
