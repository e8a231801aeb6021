import SchemaMerge.Document.Basic
import SchemaMerge.Proofs.Token.Genuine
import SchemaMerge.Reading.Value

/-!
# Well-formed documents

A document keeps names, literals, descriptions and comments as text. It is well formed if each of
these texts is a token of its kind, and if its parts have the shape in which they are read: a
default that is no list is one literal, lists are nested no deeper than they may be, a directive
definition names at least one location, and no interface is named twice. Such a document can be
printed and read again; everything that is read from a text or merged from such documents is well
formed.
-/

namespace SchemaMerge

/-! ## Texts -/

/-- The text is a literal: a string, a block string, a number in canonical form or a name. -/
def IsLiteral (text : String) : Prop := ∃ kind, Spells text.toList kind ∧ kind.literal? = some text

/-- The text is a string, a block string or a comment. -/
def IsDescription (text : String) : Prop :=
  ∃ kind, Spells text.toList kind ∧ kind.description? = some text

/-- The text is a comment. -/
def IsComment (text : String) : Prop := Spells text.toList (.comment text)

/-- The text is an item of a list literal that may hold lists nested `depth` deep. -/
def IsItem (separator : String) : Nat → String → Prop
  | 0, text => IsLiteral text
  | depth + 1, text => IsLiteral text ∨
    ∃ items : List String, (∀ item ∈ items, IsItem separator depth item) ∧
      text = "[" ++ String.intercalate separator items ++ "]"

theorem isItem_of_isLiteral {text : String} (h : IsLiteral text) (separator : String)
    (depth : Nat) : IsItem separator depth text := by
  cases depth with
  | zero => exact h
  | succ depth => exact .inl h

/-- The values are those of a list literal, or one literal. -/
def AreValues (separator : String) (isList : Bool) (values : List String) : Prop :=
  if isList then ∀ value ∈ values, IsItem separator (Parser.maxListDepth - 1) value
  else ∃ value, IsLiteral value ∧ values = [value]

/-! ## Parts of definitions -/

/-- A type with a name. Only a list is marked as a list that may be null. -/
structure TypeRef.WellFormed (type : TypeRef) : Prop where
  name : IsName type.name
  listNullable : type.isList = false → type.listNullable = false

/-- A default whose values are those of a list literal, or one literal. -/
def DefaultValue.WellFormed (default : DefaultValue) : Prop :=
  AreValues ", " default.isList default.values

/-- A named argument with values. -/
structure DirectiveArgument.WellFormed (argument : DirectiveArgument) : Prop where
  name : IsName argument.name
  values : AreValues "," argument.isList argument.values

/-- An application of a named directive. -/
structure Directive.WellFormed (directive : Directive) : Prop where
  name : IsName directive.name
  arguments : ∀ a ∈ directive.arguments, a.WellFormed
  descriptions : ∀ text ∈ directive.descriptions, IsDescription text

/-- A named argument. -/
structure Argument.WellFormed (argument : Argument) : Prop where
  name : IsName argument.name
  type : argument.type.WellFormed
  default : ∀ d ∈ argument.default, d.WellFormed
  directives : ∀ d ∈ argument.directives, d.WellFormed
  descriptions : ∀ text ∈ argument.descriptions, IsDescription text

/-- A named field. -/
structure Field.WellFormed (field : Field) : Prop where
  name : IsName field.name
  arguments : ∀ a ∈ field.arguments, a.WellFormed
  type : field.type.WellFormed
  default : ∀ d ∈ field.default, d.WellFormed
  directives : ∀ d ∈ field.directives, d.WellFormed
  descriptions : ∀ text ∈ field.descriptions, IsDescription text
  comments : ∀ text ∈ field.comments, IsComment text

/-- A named value. -/
structure EnumValue.WellFormed (value : EnumValue) : Prop where
  name : IsName value.name
  directives : ∀ d ∈ value.directives, d.WellFormed
  descriptions : ∀ text ∈ value.descriptions, IsDescription text
  comments : ∀ text ∈ value.comments, IsComment text

/-! ## Definitions -/

/-- A block whose types are names. -/
structure SchemaBlock.WellFormed (block : SchemaBlock) : Prop where
  rootTypes : ∀ operation, ∀ type ∈ block.rootType? operation, IsName type
  descriptions : ∀ text ∈ block.descriptions, IsDescription text

/-- A definition with at least one location. -/
structure DirectiveDefinition.WellFormed (definition : DirectiveDefinition) : Prop where
  name : IsName definition.name
  arguments : ∀ a ∈ definition.arguments, a.WellFormed
  locations : ∀ location ∈ definition.locations, IsName location
  locations_ne_nil : definition.locations ≠ []
  descriptions : ∀ text ∈ definition.descriptions, IsDescription text
  comments : ∀ text ∈ definition.comments, IsComment text

/-- A named scalar. -/
structure ScalarDefinition.WellFormed (definition : ScalarDefinition) : Prop where
  name : IsName definition.name
  directives : ∀ d ∈ definition.directives, d.WellFormed
  descriptions : ∀ text ∈ definition.descriptions, IsDescription text
  comments : ∀ text ∈ definition.comments, IsComment text

/-- A named enum. -/
structure EnumDefinition.WellFormed (definition : EnumDefinition) : Prop where
  name : IsName definition.name
  values : ∀ v ∈ definition.values, v.WellFormed
  directives : ∀ d ∈ definition.directives, d.WellFormed
  descriptions : ∀ text ∈ definition.descriptions, IsDescription text
  comments : ∀ text ∈ definition.comments, IsComment text

/-- A named interface or input. -/
structure FieldsDefinition.WellFormed (definition : FieldsDefinition) : Prop where
  name : IsName definition.name
  fields : ∀ f ∈ definition.fields, f.WellFormed
  directives : ∀ d ∈ definition.directives, d.WellFormed
  descriptions : ∀ text ∈ definition.descriptions, IsDescription text
  comments : ∀ text ∈ definition.comments, IsComment text

/-- A named union of names. -/
structure UnionDefinition.WellFormed (definition : UnionDefinition) : Prop where
  name : IsName definition.name
  members : ∀ member ∈ definition.members, IsName member
  directives : ∀ d ∈ definition.directives, d.WellFormed
  descriptions : ∀ text ∈ definition.descriptions, IsDescription text
  comments : ∀ text ∈ definition.comments, IsComment text

/-- A named type that names each of its interfaces once. -/
structure TypeDefinition.WellFormed (definition : TypeDefinition) : Prop where
  name : IsName definition.name
  interfaces : ∀ interface ∈ definition.interfaces, IsName interface
  interfaces_nodup : definition.interfaces.Nodup
  fields : ∀ f ∈ definition.fields, f.WellFormed
  directives : ∀ d ∈ definition.directives, d.WellFormed
  descriptions : ∀ text ∈ definition.descriptions, IsDescription text
  comments : ∀ text ∈ definition.comments, IsComment text

/-- A document of well-formed definitions. -/
structure Document.WellFormed (d : Document) : Prop where
  schemaBlocks : ∀ a ∈ d.schemaBlocks, a.WellFormed
  directiveDefinitions : ∀ a ∈ d.directiveDefinitions, a.WellFormed
  scalars : ∀ a ∈ d.scalars, a.WellFormed
  enums : ∀ a ∈ d.enums, a.WellFormed
  interfaces : ∀ a ∈ d.interfaces, a.WellFormed
  unions : ∀ a ∈ d.unions, a.WellFormed
  inputs : ∀ a ∈ d.inputs, a.WellFormed
  types : ∀ a ∈ d.types, a.WellFormed

end SchemaMerge
