import SchemaMerge.Proofs.Merge.Directives

/-!
# Canonical documents

Printing writes less than a document holds: of the descriptions and the comments of a node the
first, directives from the last name to the first and without descriptions, root types before all
others, and a schema block only if it names a root type. The canonical form of a document keeps just
that.
`withoutSpans` forgets where definitions and fields stand.
-/

namespace SchemaMerge

/-! ## What printing keeps -/

/-- Directives in descending order of their names, those of one name in their order, without
descriptions. -/
def canonicalDirectives (ds : List Directive) : List Directive :=
  (ds.map Directive.skeleton).mergeSort fun a b => b.name ≤ a.name

/-- An argument with its first description. -/
def Argument.canonical (argument : Argument) : Argument :=
  { argument with
    directives := canonicalDirectives argument.directives
    descriptions := argument.descriptions.take 1 }

/-- A field with its first description and comment. -/
def Field.canonical (field : Field) : Field :=
  { field with
    arguments := field.arguments.map Argument.canonical
    directives := canonicalDirectives field.directives
    descriptions := field.descriptions.take 1
    comments := field.comments.take 1 }

/-- An enum value with its first description and comment. -/
def EnumValue.canonical (value : EnumValue) : EnumValue :=
  { value with
    directives := canonicalDirectives value.directives
    descriptions := value.descriptions.take 1
    comments := value.comments.take 1 }

/-- A schema block with its first description. -/
def SchemaBlock.canonical (block : SchemaBlock) : SchemaBlock :=
  { block with descriptions := block.descriptions.take 1 }

/-- A directive definition with its first description and comment. -/
def DirectiveDefinition.canonical (definition : DirectiveDefinition) : DirectiveDefinition :=
  { definition with
    arguments := definition.arguments.map Argument.canonical
    descriptions := definition.descriptions.take 1
    comments := definition.comments.take 1 }

/-- A scalar with its first description and comment. -/
def ScalarDefinition.canonical (definition : ScalarDefinition) : ScalarDefinition :=
  { definition with
    directives := canonicalDirectives definition.directives
    descriptions := definition.descriptions.take 1
    comments := definition.comments.take 1 }

/-- An enum with its first description and comment. -/
def EnumDefinition.canonical (definition : EnumDefinition) : EnumDefinition :=
  { definition with
    values := definition.values.map EnumValue.canonical
    directives := canonicalDirectives definition.directives
    descriptions := definition.descriptions.take 1
    comments := definition.comments.take 1 }

/-- An interface or input with its first description and comment. -/
def FieldsDefinition.canonical (definition : FieldsDefinition) : FieldsDefinition :=
  { definition with
    fields := definition.fields.map Field.canonical
    directives := canonicalDirectives definition.directives
    descriptions := definition.descriptions.take 1
    comments := definition.comments.take 1 }

/-- A union with its first description and comment. -/
def UnionDefinition.canonical (definition : UnionDefinition) : UnionDefinition :=
  { definition with
    directives := canonicalDirectives definition.directives
    descriptions := definition.descriptions.take 1
    comments := definition.comments.take 1 }

/-- A type with its first description and comment. -/
def TypeDefinition.canonical (definition : TypeDefinition) : TypeDefinition :=
  { definition with
    fields := definition.fields.map Field.canonical
    directives := canonicalDirectives definition.directives
    descriptions := definition.descriptions.take 1
    comments := definition.comments.take 1 }

/-- The name of the type that serves an operation in a document. -/
def Document.servingName (d : Document) (operation : RootOperation) : String :=
  ((d.schemaBlocks.head?.bind fun block => block.rootType? operation)).getD operation.defaultType

/-- The types that serve query, mutation and subscription, in this order, and then all others. A
type that serves several operations stands with the first of them. -/
def Document.typesInOrder (d : Document) : List TypeDefinition :=
  let query := d.servingName .query
  let mutation := d.servingName .mutation
  let subscription := d.servingName .subscription
  d.types.filter (fun t => t.name = query) ++
    d.types.filter (fun t => t.name = mutation ∧ t.name ≠ query) ++
    d.types.filter (fun t => t.name = subscription ∧ t.name ≠ query ∧ t.name ≠ mutation) ++
    d.types.filter (fun t => t.name ≠ query ∧ t.name ≠ mutation ∧ t.name ≠ subscription)

/-- The document as it is after printing it and reading it again. -/
def Document.canonical (d : Document) : Document where
  schemaBlocks := (d.schemaBlocks.filter SchemaBlock.hasRootTypes).map SchemaBlock.canonical
  directiveDefinitions := d.directiveDefinitions.map DirectiveDefinition.canonical
  scalars := d.scalars.map ScalarDefinition.canonical
  enums := d.enums.map EnumDefinition.canonical
  interfaces := d.interfaces.map FieldsDefinition.canonical
  unions := d.unions.map UnionDefinition.canonical
  inputs := d.inputs.map FieldsDefinition.canonical
  types := d.typesInOrder.map TypeDefinition.canonical

/-! ## Without spans -/

/-- A kind of node in which spans can be forgotten. -/
class Spanned (α : Type) where
  withoutSpans : α → α

export Spanned (withoutSpans)

instance : Spanned Field where
  withoutSpans a := { a with span := default }

instance : Spanned SchemaBlock where
  withoutSpans a := { a with span := default }

instance : Spanned DirectiveDefinition where
  withoutSpans a := { a with span := default }

instance : Spanned ScalarDefinition where
  withoutSpans a := { a with span := default }

instance : Spanned EnumDefinition where
  withoutSpans a := { a with span := default }

instance : Spanned FieldsDefinition where
  withoutSpans a := { a with fields := a.fields.map withoutSpans, span := default }

instance : Spanned UnionDefinition where
  withoutSpans a := { a with span := default }

instance : Spanned TypeDefinition where
  withoutSpans a := { a with fields := a.fields.map withoutSpans, span := default }

instance : Spanned Document where
  withoutSpans d :=
    { schemaBlocks := d.schemaBlocks.map withoutSpans
      directiveDefinitions := d.directiveDefinitions.map withoutSpans
      scalars := d.scalars.map withoutSpans
      enums := d.enums.map withoutSpans
      interfaces := d.interfaces.map withoutSpans
      unions := d.unions.map withoutSpans
      inputs := d.inputs.map withoutSpans
      types := d.types.map withoutSpans }

/-! ## Root types first -/

theorem Document.rootsFirst_eq (d : Document) : d.rootsFirst = d.typesInOrder := by
  have hnames : rootTypeNames d.schemaBlocks.head? =
      [d.servingName .query, d.servingName .mutation, d.servingName .subscription] := rfl
  simp only [rootsFirst, hnames, typesByName, typesInOrder, List.filter_filter, List.append_assoc,
    ne_eq, decide_not, Bool.decide_and]
  congr 3 <;> exact List.filter_congr fun t _ => by
    simp [Bool.and_comm, Bool.and_left_comm, Bool.and_assoc]

end SchemaMerge
